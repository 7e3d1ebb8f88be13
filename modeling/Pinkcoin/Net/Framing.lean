/-
A node sends messages, its socket takes them in parts, and the other end reads
what has come in parts of its own: what is put together there is what was sent.
-/
import Pinkcoin.Lib.Frames
import Pinkcoin.Net.Message

namespace Pinkcoin

open CScript (leBytes leNat length_leBytes)
open StateError

/-- A message as it is pushed. -/
structure Message where
  pszCommand : List UInt8
  payload : List UInt8
  small : payload.length ≤ MAX_SIZE

namespace Message

-- the network's start bytes and the hash of the checksum
variable (start : Bytes 4) (hash : List UInt8 → Uint256)

def header (m : Message) : CMessageHeader :=
  ⟨start.toList, CMessageHeader.command m.pszCommand, m.payload.length, SendNode.checksum hash m.payload⟩

/-- On the wire. -/
def bytes (m : Message) : List UInt8 := (m.header start hash).serialize ++ m.payload

def stream (messages : List Message) : List UInt8 := (messages.map (bytes start hash)).flatten

/-- What is put together of the first `n` bytes. -/
def after (m : Message) (n : Nat) : CNetMessage :=
  if n < 24 then { CNetMessage.init start.toList with hdrbuf := ⟨(m.header start hash).serialize.take n ++ List.replicate (24 - n) 0, 0⟩, nHdrPos := n }
  else ⟨true, ⟨[], 0⟩, m.header start hash, 24, m.payload.take (n - 24) ++ List.replicate (m.payload.length - (n - 24)) 0, n - 24, 0⟩

def size (m : Message) : Nat := 24 + m.payload.length

variable {start hash} {m : Message} {n : Nat} {messages : List Message}

theorem size_pos (m : Message) : 0 < m.size := by simp [size]

@[simp] theorem length_command (pszCommand : List UInt8) : (CMessageHeader.command pszCommand).length = 12 := by
  simp [CMessageHeader.command, COMMAND_SIZE]

@[simp] theorem length_serialize : ((m.header start hash).serialize).length = 24 := by
  simp [CMessageHeader.serialize, header, length_leBytes]

@[simp] theorem length_bytes : (m.bytes start hash).length = m.size := by simp [bytes, size]

theorem length_stream : (stream start hash messages).length = Frames.total size messages := by
  induction messages with
  | nil => rfl
  | cons m messages ih =>
    simp only [stream, List.map_cons, List.flatten_cons, List.length_append, length_bytes, Frames.total_cons] at ih ⊢
    rw [ih]

@[simp] theorem stream_append {messages' : List Message} :
    stream start hash (messages ++ messages') = stream start hash messages ++ stream start hash messages' := by
  simp [stream]

@[simp] theorem stream_nil : stream start hash [] = [] := rfl

@[simp] theorem stream_cons : stream start hash (m :: messages) = m.bytes start hash ++ stream start hash messages := by
  simp [stream]

end Message

/-! ## Buffers -/

theorem overwrite_middle {a b c x : List UInt8} {pos : Nat} (ha : a.length = pos) (hb : b.length = x.length) :
    overwrite (a ++ (b ++ c)) pos x = a ++ (x ++ c) := by
  subst ha
  rw [overwrite, List.take_left', ← hb, ← List.drop_drop, List.drop_left', List.drop_left'] <;> simp

/-- The next bytes of `x` are copied into a buffer that holds the first `n`. -/
theorem overwrite_next (x chunk : List UInt8) {more y : List UInt8} {total n : Nat} (hx : x.length = total) (hle : n + chunk.length ≤ total)
    (hnext : x.drop n ++ y = chunk ++ more) :
    overwrite (x.take n ++ List.replicate (total - n) 0) n chunk =
      x.take (n + chunk.length) ++ List.replicate (total - (n + chunk.length)) 0 := by
  have hlen : (x.take n).length = n := by simp; omega
  have hsplit : List.replicate (total - n) (0 : UInt8) = List.replicate chunk.length 0 ++ List.replicate (total - (n + chunk.length)) 0 := by
    rw [List.replicate_append_replicate]
    congr 1
    omega
  have hchunk : (x.drop n).take chunk.length = chunk := by
    have htake := congrArg (List.take chunk.length) hnext
    rwa [List.take_append_of_le_length (by simp; omega), List.take_left] at htake
  rw [hsplit, overwrite_middle hlen (by simp), List.take_add, hchunk, List.append_assoc]

/-! ## The header -/

namespace CDataStream

variable {b : List UInt8} {pos k : Nat}

/-- A read that ends within the buffer. -/
theorem read_within (hlt : pos + k < b.length) (hb : b.length < 2 ^ 32) :
    read k ⟨b, pos⟩ = .ok ((b.drop pos).take k) ⟨b, pos + k⟩ := by
  have hmod : (pos + k) % 2 ^ 32 = pos + k := Nat.mod_eq_of_lt (by omega)
  simp only [read, hmod]
  rw [if_neg (by omega)]

/-- A read of all that is left clears the stream. -/
theorem read_last (heq : pos + k = b.length) (hb : b.length < 2 ^ 32) : read k ⟨b, pos⟩ = .ok ((b.drop pos).take k) ⟨[], 0⟩ := by
  have hmod : (pos + k) % 2 ^ 32 = pos + k := Nat.mod_eq_of_lt (by omega)
  simp only [read, hmod]
  rw [if_pos (by omega), if_neg (by omega)]

end CDataStream

/-- **A header is read back.** -/
theorem CMessageHeader.unserialize_serialize {hdr : CMessageHeader} (hstart : hdr.pchMessageStart.length = 4)
    (hcommand : hdr.pchCommand.length = 12) (hsize : hdr.nMessageSize < 2 ^ 32) (hsum : hdr.nChecksum < 2 ^ 32) :
    unserialize ⟨hdr.serialize, 0⟩ = .ok hdr ⟨[], 0⟩ := by
  obtain ⟨a, b, size, sum⟩ := hdr
  simp only at hstart hcommand hsize hsum
  let bytes := CMessageHeader.serialize ⟨a, b, size, sum⟩
  have hlen : bytes.length = 24 := by simp [bytes, serialize, hstart, hcommand, length_leBytes]
  have hdrop : bytes.drop 4 = b ++ (leBytes 4 size ++ leBytes 4 sum) := List.drop_left' hstart
  have hdrop' : bytes.drop 16 = leBytes 4 size ++ leBytes 4 sum := by
    rw [show (16 : Nat) = 4 + 12 from rfl, ← List.drop_drop, hdrop, List.drop_left' hcommand]
  have hdrop'' : bytes.drop 20 = leBytes 4 sum := by
    rw [show (20 : Nat) = 16 + 4 from rfl, ← List.drop_drop, hdrop', List.drop_left' (length_leBytes _ _)]
  have h1 : CDataStream.read 4 ⟨bytes, 0⟩ = .ok a ⟨bytes, 4⟩ := by
    rw [CDataStream.read_within (by omega) (by omega)]
    simp [bytes, serialize, ← hstart]
  have h2 : CDataStream.read COMMAND_SIZE ⟨bytes, 4⟩ = .ok b ⟨bytes, 16⟩ := by
    rw [COMMAND_SIZE, CDataStream.read_within (by omega) (by omega)]
    rw [hdrop, List.take_left' hcommand]
  have h3 : CDataStream.read 4 ⟨bytes, 16⟩ = .ok (leBytes 4 size) ⟨bytes, 20⟩ := by
    rw [CDataStream.read_within (by omega) (by omega)]
    rw [hdrop', List.take_left' (length_leBytes _ _)]
  have h4 : CDataStream.read 4 ⟨bytes, 20⟩ = .ok (leBytes 4 sum) ⟨[], 0⟩ := by
    rw [CDataStream.read_last (by omega) (by omega)]
    rw [hdrop'', List.take_of_length_le (by simp [length_leBytes])]
  have hsize' : leNat (leBytes 4 size) = size := by
    rw [leNat_leBytes]
    exact Nat.mod_eq_of_lt (by omega)
  have hsum' : leNat (leBytes 4 sum) = sum := by
    rw [leNat_leBytes]
    exact Nat.mod_eq_of_lt (by omega)
  simp only [unserialize, readUInt, bind, EStateM.bind, pure, EStateM.pure]
  rw [h1]
  simp only [h2, h3, h4, hsize', hsum']

/-! ## What is received -/

section Receive

variable {start : Bytes 4} {hash : List UInt8 → Uint256} {m : Message} {n t : Nat} {pch more rest : List UInt8}

theorem Message.unserialize_header : CMessageHeader.unserialize ⟨(m.header start hash).serialize, 0⟩ = .ok (m.header start hash) ⟨[], 0⟩ := by
  refine CMessageHeader.unserialize_serialize start.2 (Message.length_command _) ?_ (Nat.mod_lt _ (by decide))
  have hsmall := m.small
  simp only [Message.header, MAX_SIZE] at hsmall ⊢
  omega

/-- The bytes a round handles. -/
def Message.handled (m : Message) (n : Nat) (pch : List UInt8) : Nat := min (if n < 24 then 24 - n else m.size - n) pch.length

/-- **A round of the receiver** goes on with the message. -/
theorem Message.absorb_after (nTime : Int) (hn : n < m.size) (hnext : (m.bytes start hash).drop n ++ rest = pch ++ more) :
    CNetMessage.absorb { m.after start hash n with nTime } pch =
      (some (m.handled n pch), { m.after start hash (n + m.handled n pch) with nTime }) := by
  have hchunk : (pch.take (m.handled n pch)).length = m.handled n pch := by simp [handled]
  have hsplit : (m.bytes start hash).drop n ++ rest = pch.take (m.handled n pch) ++ (pch.drop (m.handled n pch) ++ more) := by
    rw [hnext, ← List.append_assoc, List.take_append_drop]
  by_cases hhdr : n < 24
  · have hk : m.handled n pch = min (24 - n) pch.length := by rw [handled, if_pos hhdr]
    have hle : n + m.handled n pch ≤ 24 := by omega
    have hbuf := overwrite_next (m.header start hash).serialize (pch.take (m.handled n pch)) (n := n)
      length_serialize (by rw [hchunk]; exact hle) (y := m.payload ++ rest) (by
        rw [← List.append_assoc, ← List.drop_append_of_le_length (by rw [length_serialize]; omega)]
        exact hsplit)
    rw [hchunk] at hbuf
    have hin : (m.after start hash n).in_data = false := by rw [after, if_pos hhdr]; rfl
    rw [CNetMessage.absorb, if_neg (by simp [hin]), CNetMessage.readHeader]
    simp only [after, if_pos hhdr, ← hk, hbuf]
    by_cases hlt : n + m.handled n pch < 24
    · simp only [if_pos hlt]
    · have hend : n + m.handled n pch = 24 := by omega
      have hfull : (m.header start hash).serialize.take 24 ++ List.replicate (24 - 24) 0 = (m.header start hash).serialize := by
        simp [List.take_of_length_le]
      have hsmall : ¬ MAX_SIZE < (m.header start hash).nMessageSize := Nat.not_lt.mpr m.small
      simp only [hend, hfull, unserialize_header, if_neg hsmall, Nat.lt_irrefl, if_false]
      simp [resize, CNetMessage.init, header]
  · have hk : m.handled n pch = min (m.size - n) pch.length := by rw [handled, if_neg hhdr]
    have hdata : m.payload.length - (n - 24) = m.size - n := by
      simp only [size] at hn ⊢
      omega
    have hdrop : (m.bytes start hash).drop n = m.payload.drop (n - 24) := by
      have hnil : (m.header start hash).serialize.drop n = [] := List.drop_eq_nil_of_le (by rw [length_serialize]; omega)
      rw [bytes, List.drop_append, length_serialize, hnil, List.nil_append]
    have hle : n - 24 + m.handled n pch ≤ m.payload.length := by omega
    have hbuf := overwrite_next m.payload (pch.take (m.handled n pch)) (n := n - 24) rfl
      (by rw [hchunk]; exact hle) (y := rest) (hdrop ▸ hsplit)
    rw [hchunk] at hbuf
    have hpos : n - 24 + m.handled n pch = n + m.handled n pch - 24 := by omega
    have hin : (m.after start hash n).in_data = true := by rw [after, if_neg hhdr]
    rw [CNetMessage.absorb, if_pos hin, CNetMessage.readData]
    have hsize : (m.header start hash).nMessageSize = m.payload.length := rfl
    simp only [after, if_neg hhdr, if_neg (show ¬ n + m.handled n pch < 24 by omega), hsize, hdata, ← hk, ← hpos]
    rw [← hdata, hbuf]

/-- A message without its time. -/
def CNetMessage.untimed (msg : CNetMessage) : CNetMessage := { msg with nTime := 0 }

@[simp] theorem CNetMessage.complete_untimed (msg : CNetMessage) : msg.untimed.complete = msg.complete := rfl

theorem CNetMessage.eq_of_untimed {msg msg' : CNetMessage} (h : msg.untimed = msg') : msg = { msg' with nTime := msg.nTime } := by
  subst h
  rfl

/-- The whole message. -/
def Message.delivered (start : Bytes 4) (hash : List UInt8 → Uint256) (m : Message) : CNetMessage :=
  ⟨true, ⟨[], 0⟩, m.header start hash, 24, m.payload, m.payload.length, 0⟩

theorem Message.after_size : m.after start hash m.size = m.delivered start hash := by
  simp [after, size, delivered]

theorem Message.complete_after : (m.after start hash n).complete = decide (n = m.size) := by
  by_cases hhdr : n < 24
  · have hne : n ≠ m.size := by
      simp only [size]
      omega
    simp [after, hhdr, CNetMessage.complete, CNetMessage.init, hne]
  · have hsize : m.size = 24 + m.payload.length := rfl
    have hiff : m.payload.length = n - 24 ↔ n = m.size := by omega
    simp [after, hhdr, CNetMessage.complete, header, hiff]

variable {messages : List Message} {vRecvMsg : List CNetMessage}

/-- The message a round goes on with. -/
theorem current_received (hrecv : vRecvMsg.map (·.untimed) = Frames.received Message.size (Message.after start hash) messages n)
    (hn : n < Frames.total Message.size messages) :
    ∃ done m rest part nTime, messages = done ++ m :: rest ∧ n = Frames.total Message.size done + part ∧ part < m.size ∧
      (CNetMessage.current start.toList vRecvMsg).1.map (·.untimed) = done.map (fun m => m.after start hash m.size) ∧
      (CNetMessage.current start.toList vRecvMsg).2 = { m.after start hash part with nTime } := by
  obtain ⟨done, m, rest, part, rfl, rfl, hpart⟩ := Frames.exists_next (fun m _ => m.size_pos) hn
  rw [Frames.received_append _ _ _ (fun m _ => m.size_pos), Frames.received_next (by omega)] at hrecv
  have hwhole : ∀ msg ∈ done.map (fun m => m.after start hash m.size), msg.complete = true := by
    intro msg hmsg
    obtain ⟨g, -, rfl⟩ := List.mem_map.mp hmsg
    rw [Message.complete_after, decide_eq_true rfl]
  by_cases hzero : part = 0
  · subst hzero
    rw [if_pos rfl, List.append_nil] at hrecv
    have hcurrent : CNetMessage.current start.toList vRecvMsg = (vRecvMsg, .init start.toList) := by
      rw [CNetMessage.current]
      cases hlast : vRecvMsg.getLast? with
      | none => rfl
      | some msg =>
        have hmem : msg.untimed ∈ vRecvMsg.map (·.untimed) := List.mem_map_of_mem (List.mem_of_getLast? hlast)
        have hcomplete := hwhole _ (hrecv ▸ hmem)
        rw [CNetMessage.complete_untimed] at hcomplete
        simp [hcomplete]
    refine ⟨done, m, rest, 0, 0, rfl, rfl, hpart, ?_, ?_⟩
    · rw [hcurrent, hrecv]
    · rw [hcurrent]
      simp [Message.after, CNetMessage.init]
  · rw [if_neg hzero] at hrecv
    obtain ⟨front, last, rfl, hfront, hlast⟩ := List.map_eq_append_iff.mp hrecv
    obtain ⟨msg, tail, rfl, hmsg, htail⟩ := List.map_eq_cons_iff.mp hlast
    obtain rfl := List.map_eq_nil_iff.mp htail
    have hincomplete : msg.complete = false := by
      rw [← CNetMessage.complete_untimed, hmsg, Message.complete_after]
      exact decide_eq_false (by omega)
    have hcurrent : CNetMessage.current start.toList (front ++ [msg]) = (front, msg) := by
      simp [CNetMessage.current, hincomplete]
    refine ⟨done, m, rest, part, msg.nTime, rfl, rfl, hpart, ?_, ?_⟩
    · rw [hcurrent, hfront]
    · rw [hcurrent]
      exact CNetMessage.eq_of_untimed hmsg

/-- **`ReceiveMsgBytes` goes on with the stream**, and does not refuse it. -/
theorem receiveLoop_received (clock : Nat → Int) {fuel : Nat} (hfuel : pch.length ≤ fuel)
    (hrecv : vRecvMsg.map (·.untimed) = Frames.received Message.size (Message.after start hash) messages n)
    (hstream : (Message.stream start hash messages).drop n = pch ++ more) :
    ∃ vRecvMsg', CNetMessage.receiveLoop start.toList clock fuel vRecvMsg pch = (true, vRecvMsg') ∧
      vRecvMsg'.map (·.untimed) = Frames.received Message.size (Message.after start hash) messages (n + pch.length) := by
  induction fuel generalizing vRecvMsg pch n with
  | zero =>
    obtain rfl := List.length_eq_zero_iff.mp (Nat.le_zero.mp hfuel)
    exact ⟨vRecvMsg, rfl, hrecv⟩
  | succ fuel ih =>
    by_cases hempty : pch = []
    · subst hempty
      exact ⟨vRecvMsg, rfl, hrecv⟩
    have hlen : 0 < pch.length := List.length_pos_iff.mpr hempty
    have hn : n < Frames.total Message.size messages := by
      have hlen' := congrArg List.length hstream
      rw [List.length_drop, List.length_append, Message.length_stream] at hlen'
      omega
    obtain ⟨done, m, rest, part, nTime, rfl, rfl, hpart, hfront, hmsg⟩ := current_received hrecv hn
    have hnext : (m.bytes start hash).drop part ++ Message.stream start hash rest = pch ++ more := by
      rw [← hstream, Message.stream_append, Message.stream_cons, ← List.drop_drop, ← Message.length_stream, List.drop_left,
        List.drop_append_of_le_length (by rw [Message.length_bytes]; omega)]
    have hk : 0 < m.handled part pch ∧ m.handled part pch ≤ pch.length ∧ part + m.handled part pch ≤ m.size := by
      have hsize : m.size = 24 + m.payload.length := rfl
      rw [Message.handled]
      split <;> omega
    generalize hhandled : m.handled part pch = k at hk
    generalize hcurrent : CNetMessage.current start.toList vRecvMsg = current at hfront hmsg
    obtain ⟨front, msg⟩ := current
    simp only at hfront hmsg
    have habsorb : msg.absorb pch = (some k, { m.after start hash (part + k) with nTime }) := by
      rw [hmsg, Message.absorb_after nTime hpart hnext, hhandled]
    -- the messages after the round
    generalize hmsg' : (if ({ m.after start hash (part + k) with nTime } : CNetMessage).complete then
      { m.after start hash (part + k) with nTime := clock (pch.drop k).length } else { m.after start hash (part + k) with nTime }) = msg'
    have huntimed : msg'.untimed = m.after start hash (part + k) := by
      have hafter : (m.after start hash (part + k)).nTime = 0 := by
        rw [Message.after]
        split <;> rfl
      subst hmsg'
      split <;> simp [CNetMessage.untimed, ← hafter]
    have hrecv' : (front ++ [msg']).map (·.untimed) = Frames.received Message.size (Message.after start hash) (done ++ m :: rest)
        (Frames.total Message.size done + part + k) := by
      rw [Nat.add_assoc, Frames.received_append _ _ _ (fun m _ => m.size_pos), Frames.received_next hk.2.2, if_neg (by omega)]
      simp [hfront, huntimed]
    have hstream' : (Message.stream start hash (done ++ m :: rest)).drop (Frames.total Message.size done + part + k) =
        pch.drop k ++ more := by
      rw [← List.drop_drop, hstream, List.drop_append_of_le_length hk.2.1]
    obtain ⟨vRecvMsg', hloop, hfinal⟩ := ih (by simp; omega) hrecv' hstream'
    refine ⟨vRecvMsg', ?_, ?_⟩
    · have hsome : pch.isEmpty = false := by simp [hempty]
      rw [CNetMessage.receiveLoop, hsome]
      simp only [hcurrent, habsorb, hmsg', Bool.false_eq_true, if_false]
      exact hloop
    · rw [hfinal, List.length_drop]
      congr 1
      omega

end Receive

/-! ## What is sent -/

/-- The socket has the stream up to the queue: the rest of the first buffer and
the other buffers are still to come. -/
structure Queue (stream : List UInt8) (queue : List (List UInt8)) (s : SendNode) : Prop where
  stream : s.sent ++ queue.flatten.drop s.nSendOffset = stream
  offset : ∀ data rest, queue = data :: rest → s.nSendOffset < data.length
  empty : queue = [] → s.nSendOffset = 0
  size : s.nSendSize = (queue.map List.length).sum
  nonempty : ∀ data ∈ queue, 0 < data.length

section Send

variable {stream data : List UInt8} {queue rest : List (List UInt8)} {s s' : SendNode}

theorem Queue.congr (h : Queue stream queue s) (hsent : s'.sent = s.sent) (hoffset : s'.nSendOffset = s.nSendOffset)
    (hsize : s'.nSendSize = s.nSendSize) : Queue stream queue s' := by
  refine ⟨?_, ?_, ?_, ?_, h.nonempty⟩
  · rw [hsent, hoffset]
    exact h.stream
  · rw [hoffset]
    exact h.offset
  · rw [hoffset]
    exact h.empty
  · rw [hsize]
    exact h.size

/-- The socket takes a part of the first buffer. -/
theorem Queue.advance {k : Nat} (h : Queue stream (data :: rest) s) (hk : s.nSendOffset + k < data.length)
    (hsent : s'.sent = s.sent ++ (data.drop s.nSendOffset).take k) (hoffset : s'.nSendOffset = s.nSendOffset + k)
    (hsize : s'.nSendSize = s.nSendSize) : Queue stream (data :: rest) s' := by
  refine ⟨?_, ?_, nofun, hsize ▸ h.size, h.nonempty⟩
  · have hstream := h.stream
    rw [List.flatten_cons, List.drop_append_of_le_length (by omega)] at hstream ⊢
    rw [hsent, hoffset, ← List.drop_drop, List.append_assoc, ← List.append_assoc (List.take k _), List.take_append_drop, hstream]
  · intro data' rest' heq
    obtain ⟨rfl, rfl⟩ := List.cons.inj heq
    omega

/-- The socket takes the rest of the first buffer. -/
theorem Queue.finish (h : Queue stream (data :: rest) s) (hsent : s'.sent = s.sent ++ data.drop s.nSendOffset)
    (hoffset : s'.nSendOffset = 0) (hsize : s'.nSendSize = s.nSendSize - data.length) : Queue stream rest s' := by
  have hlt := h.offset data rest rfl
  have hnonempty := List.forall_mem_cons.mp h.nonempty
  refine ⟨?_, ?_, fun _ => hoffset, ?_, hnonempty.2⟩
  · have hstream := h.stream
    rw [List.flatten_cons, List.drop_append_of_le_length (by omega)] at hstream
    rw [hsent, hoffset, List.drop_zero, List.append_assoc, hstream]
  · intro data' rest' heq
    rw [hoffset]
    exact hnonempty.2 data' (by simp [heq])
  · have hsum := h.size
    simp only [List.map_cons, List.sum_cons] at hsum
    omega

/-- What a call of `send` leaves alone. -/
structure SameQueue (s s' : SendNode) : Prop where
  nSendOffset : s'.nSendOffset = s.nSendOffset
  nSendSize : s'.nSendSize = s.nSendSize
  ssSend : s'.ssSend = s.ssSend

theorem send_spec : Returns (SendNode.send data) s fun result s' => SameQueue s s' ∧ match result with
    | .failed _ => s'.sent = s.sent
    | .taken k => k ≤ data.length ∧ s'.sent = s.sent ++ data.take k := by
  unfold SendNode.send
  cases hresult : s.results 0 with
  | failed fatal => exact ⟨.failed fatal, { s with results := fun i => s.results (i + 1) }, by simp only [hresult], ⟨rfl, rfl, rfl⟩, rfl⟩
  | taken nBytes =>
    by_cases hclosed : s.closed
    · exact ⟨.failed true, { s with results := fun i => s.results (i + 1) }, by simp only [hresult, hclosed, if_true], ⟨rfl, rfl, rfl⟩, rfl⟩
    · refine ⟨.taken (min nBytes data.length), { s with results := fun i => s.results (i + 1), sent := s.sent ++ data.take nBytes },
        by simp only [hresult, hclosed, if_false, Bool.false_eq_true], ⟨rfl, rfl, rfl⟩, Nat.min_le_right _ _, ?_⟩
      rw [List.take_eq_take_min]

/-- A buffer comes behind the others. -/
theorem Queue.push (h : Queue stream queue s) (hdata : 0 < data.length) (hsent : s'.sent = s.sent)
    (hoffset : s'.nSendOffset = s.nSendOffset) (hsize : s'.nSendSize = s.nSendSize + data.length) :
    Queue (stream ++ data) (queue ++ [data]) s' := by
  refine ⟨?_, ?_, by simp, ?_, ?_⟩
  · have hle : s.nSendOffset ≤ queue.flatten.length := by
      cases queue with
      | nil => simp [h.empty rfl]
      | cons first queue =>
        have hlt := h.offset first queue rfl
        simp
        omega
    rw [hsent, hoffset, ← h.stream, List.flatten_append, List.drop_append_of_le_length hle]
    simp
  · intro first rest heq
    rw [hoffset]
    cases queue with
    | nil =>
      obtain ⟨rfl, -⟩ := List.cons.inj heq
      rwa [h.empty rfl]
    | cons _ queue =>
      obtain ⟨rfl, -⟩ := List.cons.inj heq
      exact h.offset _ queue rfl
  · simp [hsize, h.size]
  · intro d hd
    rcases List.mem_append.mp hd with hd | hd
    · exact h.nonempty d hd
    · rwa [List.mem_singleton.mp hd]

/-- The loop of `SocketSendData`: its assertion holds in each round. -/
theorem Queue.sendLoop (h : Queue stream queue s) :
    Returns (SendNode.sendLoop queue) s fun rest s' => Queue stream rest s' ∧ s'.ssSend = s.ssSend ∧ s.sent <+: s'.sent := by
  induction queue generalizing s with
  | nil => exact returns_pure ⟨h, rfl, List.prefix_rfl⟩
  | cons data rest ih =>
    have hoffset := h.offset data rest rfl
    refine returns_get_bind ((returns_rejectIf (Q := fun _ t => t = s) (not_not_intro hoffset) rfl).bind fun _ t ht => ?_)
    subst ht
    refine send_spec.bind fun result u hu => ?_
    obtain ⟨hsame, hsent⟩ := hu
    cases result with
    | failed fatal =>
      have hu := h.congr hsent hsame.nSendOffset hsame.nSendSize
      have hpre : t.sent <+: u.sent := by rw [hsent]
      refine Returns.bind (P := fun _ v => Queue stream (data :: rest) v ∧ v.ssSend = t.ssSend ∧ t.sent <+: v.sent) ?_
        fun _ v hv => returns_pure hv
      refine returns_onlyIf (fun _ => ?_) fun _ => ⟨hu, hsame.ssSend, hpre⟩
      exact ⟨(), _, rfl, hu.congr rfl rfl rfl, hsame.ssSend, hpre⟩
    | taken k =>
      obtain ⟨hle, hsent⟩ := hsent
      have hpre : t.sent <+: u.sent := by
        rw [hsent]
        exact List.prefix_append _ _
      rw [List.length_drop] at hle
      dsimp only
      by_cases hzero : k = 0
      · subst hzero
        rw [if_neg (Nat.lt_irrefl 0)]
        exact returns_pure ⟨h.congr (by simpa using hsent) hsame.nSendOffset hsame.nSendSize, hsame.ssSend, hpre⟩
      · rw [if_pos (Nat.pos_of_ne_zero hzero)]
        by_cases hend : t.nSendOffset + k = data.length
        · rw [if_pos hend]
          have hall : (data.drop t.nSendOffset).take k = data.drop t.nSendOffset := List.take_of_length_le (by simp; omega)
          refine returns_modify_bind ((ih ?_).mono fun rest' s' hs' =>
            ⟨hs'.1, hs'.2.1.trans hsame.ssSend, hpre.trans hs'.2.2⟩)
          refine h.finish (hsent.trans (by rw [hall])) rfl ?_
          exact congrArg (· - data.length) hsame.nSendSize
        · rw [if_neg hend]
          refine returns_modify_bind (returns_pure ⟨h.advance (k := k) (by omega) hsent ?_ hsame.nSendSize, hsame.ssSend, hpre⟩)
          exact congrArg (· + k) hsame.nSendOffset

/-- A node between two messages. -/
structure Ready (stream : List UInt8) (s : SendNode) : Prop where
  ssSend : s.ssSend = []
  queue : Queue stream s.vSendMsg s

/-- **`SocketSendData`**: none of its assertions fails. -/
theorem Ready.socketSendData (h : Ready stream s) : Returns SendNode.socketSendData s fun _ s' => Ready stream s' ∧ s.sent <+: s'.sent := by
  refine returns_get_bind (h.queue.sendLoop.bind fun rest t ht => returns_get_bind ?_)
  obtain ⟨hqueue, hss, hpre⟩ := ht
  refine Returns.bind (P := fun _ u => u = t) (returns_onlyIf (fun hempty => ?_) fun _ => rfl) fun _ u hu => ?_
  · have hsize : t.nSendSize = 0 := by
      rw [hqueue.size, hempty]
      rfl
    refine (returns_rejectIf (Q := fun _ u => u = t) (not_not_intro (hqueue.empty hempty)) rfl).bind fun _ u hu => ?_
    exact returns_rejectIf (not_not_intro hsize) hu
  · subst hu
    exact ⟨(), _, rfl, ⟨hss.trans h.ssSend, hqueue.congr rfl rfl rfl⟩, hpre⟩

variable {start : Bytes 4} {hash : List UInt8 → Uint256} {m : Message}

/-- The size and the checksum are put where they belong. -/
theorem finished_eq :
    SendNode.finished hash ((CMessageHeader.ofCommand start.toList m.pszCommand).serialize ++ m.payload) = m.bytes start hash := by
  obtain ⟨front, hfrontEq⟩ : ∃ front, start.toList ++ CMessageHeader.command m.pszCommand = front := ⟨_, rfl⟩
  have hfront : front.length = MESSAGE_SIZE_OFFSET := by simp [← hfrontEq, MESSAGE_SIZE_OFFSET]
  have hbuf : (CMessageHeader.ofCommand start.toList m.pszCommand).serialize ++ m.payload =
      front ++ (leBytes 4 0 ++ (leBytes 4 0 ++ m.payload)) := by
    simp [CMessageHeader.serialize, CMessageHeader.ofCommand, ← hfrontEq]
  have hsize : (front ++ (leBytes 4 0 ++ (leBytes 4 0 ++ m.payload))).length - HEADER_SIZE = m.payload.length := by
    simp only [List.length_append, hfront, length_leBytes, MESSAGE_SIZE_OFFSET, HEADER_SIZE]
    omega
  have hmod : m.payload.length % 2 ^ 32 = m.payload.length := by
    have hsmall := m.small
    simp only [MAX_SIZE] at hsmall
    exact Nat.mod_eq_of_lt (by omega)
  have hsecond : overwrite (front ++ (leBytes 4 0 ++ (leBytes 4 0 ++ m.payload))) MESSAGE_SIZE_OFFSET (leBytes 4 m.payload.length) =
      (front ++ leBytes 4 m.payload.length) ++ (leBytes 4 0 ++ m.payload) := by
    rw [overwrite_middle hfront (by simp only [length_leBytes]), List.append_assoc]
  have hpos : (front ++ leBytes 4 m.payload.length).length = CHECKSUM_OFFSET := by
    simp only [List.length_append, hfront, length_leBytes, MESSAGE_SIZE_OFFSET, CHECKSUM_OFFSET]
  have hdata : ((front ++ leBytes 4 m.payload.length) ++ (leBytes 4 0 ++ m.payload)).drop HEADER_SIZE = m.payload := by
    rw [← List.append_assoc]
    exact List.drop_left' (by simp only [List.length_append, hfront, length_leBytes, MESSAGE_SIZE_OFFSET, HEADER_SIZE])
  simp only [SendNode.finished, hbuf, hsize, hmod, hsecond, hdata]
  rw [overwrite_middle hpos (by simp only [length_leBytes])]
  simp [Message.bytes, Message.header, CMessageHeader.serialize, ← hfrontEq]

/-- **A message is pushed**, after those of the queue. -/
theorem Ready.pushMessage (h : Ready stream s) (m : Message) (dropping : Bool) :
    Returns (SendNode.pushMessage start.toList hash m.pszCommand m.payload dropping) s fun _ s' =>
      Ready (stream ++ if dropping then [] else m.bytes start hash) s' ∧ s.sent <+: s'.sent := by
  let buffer := (CMessageHeader.ofCommand start.toList m.pszCommand).serialize ++ m.payload
  have hempty : ¬ s.ssSend.length ≠ 0 := by simp [h.ssSend]
  refine Returns.bind (P := fun _ t => t = { s with ssSend := (CMessageHeader.ofCommand start.toList m.pszCommand).serialize }) ?_ fun _ t ht => ?_
  · refine returns_get_bind ((returns_rejectIf (Q := fun _ t => t = s) hempty rfl).bind fun _ t ht => ⟨(), _, rfl, ?_⟩)
    rw [ht]
    simp only [h.ssSend, List.nil_append]
  subst ht
  refine returns_modify_bind (returns_get_bind ?_)
  cases dropping with
  | true =>
    refine ⟨(), _, rfl, ⟨rfl, ?_⟩, List.prefix_rfl⟩
    rw [if_pos rfl, List.append_nil]
    exact h.queue.congr rfl rfl rfl
  | false =>
    have hlen : buffer.length ≠ 0 := by simp [buffer, CMessageHeader.serialize, CMessageHeader.ofCommand, length_leBytes]
    have hbytes : ¬ ¬ CHECKSUM_OFFSET + 4 ≤ (SendNode.finished hash buffer).length := by
      simp only [buffer, finished_eq, Message.length_bytes, Message.size, CHECKSUM_OFFSET]
      omega
    simp only [Bool.false_eq_true, if_false]
    rw [if_neg hlen]
    refine (returns_rejectIf (Q := fun _ t => t = { s with ssSend := buffer }) hbytes rfl).bind fun _ t ht => ?_
    subst ht
    refine returns_modify_bind ?_
    obtain ⟨t, ht⟩ : ∃ t : SendNode, t = { s with vSendMsg := s.vSendMsg ++ [m.bytes start hash], ssSend := [],
                                                  nSendSize := s.nSendSize + (m.bytes start hash).length } := ⟨_, rfl⟩
    have hready : Ready (stream ++ m.bytes start hash) t := by
      subst ht
      exact ⟨rfl, h.queue.push (by rw [Message.length_bytes]; exact m.size_pos) rfl rfl rfl⟩
    rw [show SendNode.finished hash buffer = m.bytes start hash from finished_eq, ← ht]
    have hsent : t.sent = s.sent := by rw [ht]
    rw [← hsent]
    exact returns_onlyIf (fun _ => hready.socketSendData) fun _ => ⟨hready, List.prefix_rfl⟩

end Send

/-! ## The link -/

/-- Two nodes, one sending to the other: the sender, the bytes the receiver has
read, and the messages it has put together. -/
structure Link where
  sender : SendNode
  nReceived : Nat
  vRecvMsg : List CNetMessage

abbrev LinkM := EStateM String Link

namespace Link

/-- Nothing sent or received; what the socket will take is open. -/
def init (results : Nat → SendResult) : Link := ⟨⟨[], [], 0, 0, false, [], results⟩, 0, []⟩

inductive Event
  | pushMessage (m : Message) (dropping : Bool)
  | socketSendData
  /-- The receiver reads at most so many bytes of those that have come. -/
  | receive (nBytes : Nat) (clock : Nat → Int)

def onSender (x : SendM Unit) : LinkM Unit := fun s =>
  match x s.sender with
  | .ok _ sender => .ok () { s with sender }
  | .error e sender => .error e { s with sender }

variable (start : Bytes 4) (hash : List UInt8 → Uint256)

def perform : Event → LinkM Unit
  | .pushMessage m dropping => onSender (SendNode.pushMessage start.toList hash m.pszCommand m.payload dropping)
  | .socketSendData => onSender SendNode.socketSendData
  | .receive nBytes clock => do
    let s ← get
    let pch := (s.sender.sent.drop s.nReceived).take nBytes
    let (accepted, vRecvMsg) := CNetMessage.receiveMsgBytes start.toList clock s.vRecvMsg pch
    modify fun s => { s with nReceived := s.nReceived + pch.length, vRecvMsg }
    rejectIf (accepted = false) "ReceiveMsgBytes"

/-- The messages a run queues. -/
def queued (events : List Event) : List Message := events.filterMap fun
  | .pushMessage m false => some m
  | _ => none

/-- **A link with framing**: the buffers are counted right, and the receiver has
the first messages as they were pushed and at most a part of one more. With the
last byte it has them all. -/
structure Framed (messages : List Message) (s : Link) : Prop where
  offset : ∀ data rest, s.sender.vSendMsg = data :: rest → s.sender.nSendOffset < data.length
  size : s.sender.nSendSize = (s.sender.vSendMsg.map List.length).sum
  received : ∃ whole part, s.vRecvMsg.map (·.untimed) = whole.map (·.delivered start hash) ++ part ∧
    whole <+: messages ∧ part.length ≤ 1 ∧ (∀ msg ∈ part, msg.complete = false) ∧
    (s.sender.vSendMsg = [] → s.nReceived = s.sender.sent.length → whole = messages ∧ part = [])

/-- What every event keeps. -/
structure Carries (messages : List Message) (s : Link) : Prop where
  sender : Ready (Message.stream start hash messages) s.sender
  nReceived : s.nReceived ≤ s.sender.sent.length
  received : s.vRecvMsg.map (·.untimed) = Frames.received Message.size (Message.after start hash) messages s.nReceived

variable {start hash} {s : Link} {messages : List Message}

theorem Carries.sent_le (h : s.Carries start hash messages) : s.sender.sent.length ≤ Frames.total Message.size messages := by
  have hlen := congrArg List.length h.sender.queue.stream
  rw [List.length_append, Message.length_stream] at hlen
  omega

theorem returns_onSender {x : SendM Unit} {P : SendNode → Prop} (h : Returns x s.sender fun _ t => P t) :
    Returns (onSender x) s fun _ s' => P s'.sender ∧ s'.nReceived = s.nReceived ∧ s'.vRecvMsg = s.vRecvMsg := by
  obtain ⟨_, t, hrun, ht⟩ := h
  exact ⟨(), { s with sender := t }, by rw [onSender, hrun], ht, rfl, rfl⟩

/-- **Every event goes on**, and keeps what is carried. -/
theorem Carries.perform (h : s.Carries start hash messages) (e : Event) :
    Returns (perform start hash e) s fun _ s' => s'.Carries start hash (messages ++ queued [e]) := by
  cases e with
  | pushMessage m dropping =>
    refine (returns_onSender (h.sender.pushMessage m dropping)).mono fun _ s' hs' => ?_
    obtain ⟨⟨hready, hpre⟩, hn, hrecv⟩ := hs'
    have hle := hpre.length_le
    have hcount := h.nReceived
    have hall := h.sent_le
    refine ⟨?_, by omega, ?_⟩
    · cases dropping <;> simpa [queued] using hready
    · rw [hrecv, hn, h.received, Frames.received_push (by omega)]
  | socketSendData =>
    refine (returns_onSender h.sender.socketSendData).mono fun _ s' hs' => ?_
    obtain ⟨⟨hready, hpre⟩, hn, hrecv⟩ := hs'
    have hle := hpre.length_le
    have hcount := h.nReceived
    refine ⟨by simpa [queued] using hready, by omega, ?_⟩
    rw [hrecv, hn]
    simpa [queued] using h.received
  | receive nBytes clock =>
    obtain ⟨pch, hpch⟩ : ∃ pch, (s.sender.sent.drop s.nReceived).take nBytes = pch := ⟨_, rfl⟩
    have hstream : (Message.stream start hash messages).drop s.nReceived =
        pch ++ ((s.sender.sent.drop s.nReceived).drop nBytes ++ s.sender.vSendMsg.flatten.drop s.sender.nSendOffset) := by
      rw [← h.sender.queue.stream, List.drop_append_of_le_length h.nReceived, ← List.append_assoc, ← hpch, List.take_append_drop]
    obtain ⟨vRecvMsg, hloop, hrecv⟩ := receiveLoop_received clock le_rfl h.received hstream
    have hlen : s.nReceived + pch.length ≤ s.sender.sent.length := by
      have hcount := h.nReceived
      rw [← hpch, List.length_take, List.length_drop]
      omega
    refine ⟨(), { s with nReceived := s.nReceived + pch.length, vRecvMsg }, ?_, ?_, hlen, ?_⟩
    · simp only [Link.perform, hpch, bind, EStateM.bind, get_run, CNetMessage.receiveMsgBytes, hloop]
      rfl
    · simpa [queued] using h.sender
    · simpa [queued] using hrecv

theorem queued_cons (e : Event) (events : List Event) : queued (e :: events) = queued [e] ++ queued events := by
  simp only [queued, ← List.filterMap_append, List.singleton_append]

/-- What a run keeps. -/
theorem Carries.run (h : s.Carries start hash messages) (events : List Event) :
    Returns (forM events (Link.perform start hash)) s fun _ s' => s'.Carries start hash (messages ++ queued events) := by
  induction events generalizing s messages with
  | nil => exact returns_pure (by simpa [queued] using h)
  | cons e events ih =>
    rw [List.forM_cons, queued_cons, ← List.append_assoc]
    exact (h.perform e).bind fun _ t ht => ih ht

theorem Carries.framed (h : s.Carries start hash messages) : s.Framed start hash messages := by
  refine ⟨h.sender.queue.offset, h.sender.queue.size, ?_⟩
  have hpos : ∀ m ∈ messages, 0 < m.size := fun m _ => m.size_pos
  obtain ⟨part, hpart, hlast⟩ := Frames.received_eq (Message.after start hash) (n := s.nReceived) hpos
  have hrecv : s.vRecvMsg.map (·.untimed) =
      (Frames.whole Message.size messages s.nReceived).map (fun m => m.after start hash m.size) ++ part := h.received.trans hpart
  refine ⟨Frames.whole Message.size messages s.nReceived, part, ?_, Frames.whole_prefix, ?_, ?_, fun hempty hall => ?_⟩
  · simpa only [Message.after_size] using hrecv
  · rcases hlast with rfl | ⟨f, k, -, -, rfl⟩ <;> simp
  · intro msg hmsg
    rcases hlast with rfl | ⟨f, k, -, hk, rfl⟩
    · simp at hmsg
    · rw [List.mem_singleton.mp hmsg, Message.complete_after]
      exact decide_eq_false (by omega)
  · have htotal : s.nReceived = Frames.total Message.size messages := by
      have hlen := congrArg List.length h.sender.queue.stream
      rw [hempty, List.flatten_nil, List.drop_nil, List.append_nil, Message.length_stream] at hlen
      omega
    have hwhole : Frames.whole Message.size messages s.nReceived = messages := by rw [htotal, Frames.whole_total]
    have hdone : Frames.received Message.size (Message.after start hash) messages s.nReceived =
        messages.map (fun m => m.after start hash m.size) ++ [] := by
      have happend := Frames.received_append (Message.after start hash) [] 0 hpos
      rwa [List.append_nil, Nat.add_zero, ← htotal, Frames.received_zero] at happend
    rw [hdone, hwhole] at hpart
    exact ⟨hwhole, (List.append_cancel_left hpart).symm⟩

end Link

/-- **Framing does not depend on the parts** in which the bytes are sent and
read. -/
theorem Link.run_framed (start : Bytes 4) (hash : List UInt8 → Uint256) (results : Nat → SendResult) (events : List Link.Event) :
    Returns (forM events (Link.perform start hash)) (Link.init results) fun _ s => s.Framed start hash (Link.queued events) := by
  have hinit : (Link.init results).Carries start hash [] :=
    ⟨⟨rfl, rfl, nofun, fun _ => rfl, rfl, nofun⟩, le_rfl, rfl⟩
  exact (hinit.run events).mono fun _ s hs => hs.framed

end Pinkcoin
