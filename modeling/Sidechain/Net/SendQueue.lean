import Sidechain.Library.Run
import Sidechain.Net.FramingRun
import Sidechain.Primitives.Transaction

/-! Messages on their way to a peer. What is pushed waits in a queue, the socket takes as much of it at
a time as it likes, and the peer receives the bytes in pieces of its own. -/
namespace Sidechain
open Codec Run

def CMessageHeader.serialize (hdr : CMessageHeader) : Bytes :=
  hdr.pchMessageStart ++ (hdr.pchCommand ++ (leBytes 4 hdr.nMessageSize ++ leBytes 4 hdr.nChecksum))

/-- `strncpy` into a field of zeros. -/
def commandField (pszCommand : Bytes) : Bytes := (pszCommand ++ List.replicate 12 0).take 12

def beginMessage (start pszCommand : Bytes) : Bytes := CMessageHeader.serialize
  { pchMessageStart := start, pchCommand := commandField pszCommand, nMessageSize := 0 }

section
variable [Crypto]

/-- The first four bytes of the hash of a payload. -/
def checksum (payload : Bytes) : ℕ := (Crypto.hash256 payload).toNat % 2^32

def endMessage (ssSend : Bytes) : Outcome Bytes := do
  let ssSend ← overwrite ssSend 16 (leBytes 4 ((ssSend.length - 24) % 2^32))
  overwrite ssSend 20 (leBytes 4 (checksum (ssSend.drop 24)))

end

structure SendQueue where
  vSendMsg : List Bytes := []
  nSendSize : ℕ := 0
  nSendOffset : ℕ := 0
  deriving DecidableEq, Repr

/-- The loop of `SocketSendData`, with what the socket takes at successive calls: nothing if there is an
error or no room, and never more than it is given. The bytes it took are returned. -/
def sendLoop : List ℕ → List Bytes → ℕ → ℕ → Outcome (SendQueue × Bytes)
  | _,[],nSendOffset,nSendSize => do
    require (nSendOffset = 0) (.error (.assertion "pnode->nSendOffset == 0"))
    require (nSendSize = 0) (.error (.assertion "pnode->nSendSize == 0"))
    pure ({},[])
  | sends,data::rest,nSendOffset,nSendSize => do
    require (data.length > nSendOffset) (.error (.assertion "data.size() > pnode->nSendOffset"))
    let nBytes := min (sends.headD 0) (data.length - nSendOffset)
    let sent := (data.drop nSendOffset).take nBytes
    if nBytes = 0 then pure (⟨data::rest,nSendSize,nSendOffset⟩,[])
    else if nSendOffset + nBytes = data.length then do
      let (queue,more) ← sendLoop sends.tail rest 0 (nSendSize - data.length)
      pure (queue,sent ++ more)
    else pure (⟨data::rest,nSendSize,nSendOffset + nBytes⟩,sent)

def socketSendData (sends : List ℕ) (queue : SendQueue) : Outcome (SendQueue × Bytes) :=
  sendLoop sends queue.vSendMsg queue.nSendOffset queue.nSendSize

/-- A message is sent at once if none was waiting. -/
def pushMessage [Crypto] (start : Bytes) (sends : List ℕ) (queue : SendQueue)
    (pszCommand payload : Bytes) : Outcome (SendQueue × Bytes) := do
  let data ← endMessage (beginMessage start pszCommand ++ payload)
  let pushed : SendQueue := { queue with vSendMsg := queue.vSendMsg ++ [data]
                                         nSendSize := queue.nSendSize + data.length }
  if queue.vSendMsg = [] then socketSendData sends pushed else pure (pushed,[])

def commandValid : Bytes → Bool
  | [] => true
  | c::cs => if c = 0 then cs.all (· == 0)
    else if c < 0x20 ∨ c > 0x7e then false else commandValid cs

def CMessageHeader.isValid (hdr : CMessageHeader) (start : Bytes) : Bool :=
  hdr.pchMessageStart == start && commandValid hdr.pchCommand && decide (hdr.nMessageSize ≤ MAX_SIZE)

def CMessageHeader.getCommand (hdr : CMessageHeader) : Bytes := hdr.pchCommand.takeWhile (· ≠ 0)

/-- The command and the payload that are handed on. -/
def CNetMessage.processed [Crypto] (start : Bytes) (msg : CNetMessage) : Option (Bytes × Bytes) :=
  if msg.hdr.isValid start && checksum (msg.vRecv.take msg.hdr.nMessageSize) == msg.hdr.nChecksum then
    some (msg.hdr.getCommand,msg.vRecv)
  else none

namespace SendQueue

/-- What the socket has still to take. -/
def waiting (queue : SendQueue) : Bytes := queue.vSendMsg.flatten.drop queue.nSendOffset

structure Sound (queue : SendQueue) : Prop where
  filled : ∀ data ∈ queue.vSendMsg, 0 < data.length
  offset : queue.nSendOffset = 0 ∨
    ∃ data rest, queue.vSendMsg = data::rest ∧ queue.nSendOffset < data.length
  size : queue.nSendSize = queue.vSendMsg.flatten.length

end SendQueue

/-- No assertion fails, and what is taken is taken off the front. -/
theorem SendQueue.Sound.sendLoop {msgs : List Bytes} {nSendOffset nSendSize : ℕ}
    (h : SendQueue.Sound ⟨msgs,nSendSize,nSendOffset⟩) (sends : List ℕ) :
    ∃ queue sent, sendLoop sends msgs nSendOffset nSendSize = .ok (queue,sent) ∧ queue.Sound ∧
      sent ++ queue.waiting = msgs.flatten.drop nSendOffset := by
  induction msgs generalizing sends nSendOffset nSendSize with
  | nil =>
    obtain rfl : nSendOffset = 0 := h.offset.resolve_right (by simp)
    obtain rfl : nSendSize = 0 := h.size
    exact ⟨{},[],rfl,h,rfl⟩
  | cons data msgs ih =>
    have hoff : nSendOffset < data.length := by
      rcases h.offset with hzero | ⟨d,rest,heq,hlt⟩
      · exact Nat.lt_of_le_of_lt hzero.le (h.filled data List.mem_cons_self)
      · cases heq
        exact hlt
    have hsize : nSendSize = data.length + msgs.flatten.length := by simpa using h.size
    let nBytes := min (sends.headD 0) (data.length - nSendOffset)
    have hle : nSendOffset + nBytes ≤ data.length := by omega
    have hcut : ((data.drop nSendOffset).take nBytes) ++
        (data::msgs).flatten.drop (nSendOffset + nBytes) = (data::msgs).flatten.drop nSendOffset := by
      rw [List.flatten_cons,List.drop_append_of_le_length hle,List.drop_append_of_le_length hoff.le,
        ← List.append_assoc,← List.drop_drop,List.take_append_drop]
    unfold Sidechain.sendLoop
    rw [require,if_pos hoff]
    by_cases hzero : nBytes = 0
    · refine ⟨⟨data::msgs,nSendSize,nSendOffset⟩,[],if_pos hzero,h,rfl⟩
    by_cases hall : nSendOffset + nBytes = data.length
    · have hnext : SendQueue.Sound ⟨msgs,nSendSize - data.length,0⟩ :=
        ⟨fun d hd => h.filled d (List.mem_cons_of_mem _ hd),.inl rfl,by dsimp only; omega⟩
      obtain ⟨queue,sent,hrun,hsound,hrest⟩ := ih hnext sends.tail
      refine ⟨queue,(data.drop nSendOffset).take nBytes ++ sent,?_,hsound,?_⟩
      · refine (if_neg hzero).trans ((if_pos hall).trans ?_)
        exact bind_ok.mpr ⟨(queue,sent),hrun,rfl⟩
      · rw [List.append_assoc,hrest,← hcut,hall,List.flatten_cons,List.drop_left]
        rfl
    · exact ⟨⟨data::msgs,nSendSize,nSendOffset + nBytes⟩,_,(if_neg hzero).trans (if_neg hall),
        ⟨h.filled,.inr ⟨data,msgs,rfl,lt_of_le_of_ne hle hall⟩,h.size⟩,hcut⟩

section
variable [Crypto] {start : Bytes}

/-- The header of a message, a command with a payload. -/
def headerFor (start : Bytes) (m : Bytes × Bytes) : CMessageHeader where
  pchMessageStart := start
  pchCommand := commandField m.1
  nMessageSize := m.2.length % 2^32
  nChecksum := checksum m.2

def messageBytes (start : Bytes) (m : Bytes × Bytes) : Bytes :=
  (headerFor start m).serialize ++ m.2

omit [Crypto] in
@[simp] theorem commandField_length (pszCommand : Bytes) : (commandField pszCommand).length = 12 := by
  simp [commandField]

theorem messageBytes_length (hstart : start.length = 4) (m : Bytes × Bytes) :
    (messageBytes start m).length = 24 + m.2.length := by
  simp only [messageBytes,CMessageHeader.serialize,headerFor,List.length_append,hstart,
    commandField_length,leBytes_length]

/-- The size and the checksum are filled in behind the command. -/
theorem endMessage_ok (hstart : start.length = 4) (m : Bytes × Bytes) :
    endMessage (beginMessage start m.1 ++ m.2) = .ok (messageBytes start m) := by
  have hfront : (start ++ commandField m.1).length = 16 := by
    rw [List.length_append,hstart,commandField_length]
  have hsplit : beginMessage start m.1 ++ m.2 =
      (start ++ commandField m.1) ++ (leBytes 4 0 ++ (leBytes 4 0 ++ m.2)) := by
    simp [beginMessage,CMessageHeader.serialize]
  have hlength : (beginMessage start m.1 ++ m.2).length - 24 = m.2.length := by
    rw [hsplit]
    simp only [List.length_append,hstart,commandField_length,leBytes_length]
    omega
  have hsized : ∀ n, overwrite (beginMessage start m.1 ++ m.2) 16 (leBytes 4 n) =
      .ok ((start ++ commandField m.1 ++ leBytes 4 n) ++ (leBytes 4 0 ++ m.2)) := by
    intro n
    rw [hsplit,← hfront,overwrite_append (by simp),leBytes_length,
      List.drop_left' (leBytes_length 4 0)]
  have htwenty : ∀ n, (start ++ commandField m.1 ++ leBytes 4 n).length = 20 := by
    intro n
    rw [List.length_append,hfront,leBytes_length]
  refine bind_ok.mpr ⟨_,hsized _,?_⟩
  rw [hlength,← List.append_assoc,List.drop_left' (by rw [List.length_append,htwenty,leBytes_length]),
    List.append_assoc,← htwenty (m.2.length % 2^32),overwrite_append (by simp),leBytes_length,
    List.drop_left' (leBytes_length 4 0)]
  simp [messageBytes,CMessageHeader.serialize,headerFor]

/-- A queue with what was pushed and what the socket took, over a run. -/
inductive Sending (start : Bytes) : SendQueue → List (Bytes × Bytes) → Bytes → Prop
  | idle : Sending start {} [] []
  | push {queue queue' : SendQueue} {pushed : List (Bytes × Bytes)} {taken sent : Bytes}
    (h : Sending start queue pushed taken) (m : Bytes × Bytes) (sends : List ℕ)
    (hrun : pushMessage start sends queue m.1 m.2 = .ok (queue',sent)) :
    Sending start queue' (pushed ++ [m]) (taken ++ sent)
  | send {queue queue' : SendQueue} {pushed : List (Bytes × Bytes)} {taken sent : Bytes}
    (h : Sending start queue pushed taken) (sends : List ℕ)
    (hrun : socketSendData sends queue = .ok (queue',sent)) :
    Sending start queue' pushed (taken ++ sent)

theorem SendQueue.Sound.pushMessage {queue : SendQueue} (h : queue.Sound)
    (hstart : start.length = 4) (sends : List ℕ) (m : Bytes × Bytes) :
    ∃ queue' sent, pushMessage start sends queue m.1 m.2 = .ok (queue',sent) ∧ queue'.Sound ∧
      sent ++ queue'.waiting = queue.waiting ++ messageBytes start m := by
  let data := messageBytes start m
  have hpos : 0 < data.length := (Nat.zero_lt_succ 23).trans_le
    ((Nat.le_add_right 24 _).trans_eq (messageBytes_length hstart m).symm)
  let next : SendQueue := { queue with vSendMsg := queue.vSendMsg ++ [data]
                                       nSendSize := queue.nSendSize + data.length }
  have hoff : queue.nSendOffset ≤ queue.vSendMsg.flatten.length := by
    rcases h.offset with hzero | ⟨d,rest,hmsgs,hlt⟩
    · omega
    · rw [hmsgs,List.flatten_cons,List.length_append]
      omega
  have hwaiting : next.waiting = queue.waiting ++ data := by
    rw [SendQueue.waiting,SendQueue.waiting,← List.drop_append_of_le_length hoff]
    simp [next]
  have hnext : next.Sound := by
    refine ⟨fun d hd => ?_,h.offset.imp_right ?_,by simp [next,h.size]⟩
    · rcases List.mem_append.mp hd with hd | hd
      · exact h.filled d hd
      · exact List.mem_singleton.mp hd ▸ hpos
    · rintro ⟨d,rest,hmsgs,hlt⟩
      exact ⟨d,rest ++ [data],by simp [next,hmsgs],hlt⟩
  rw [Sidechain.pushMessage]
  by_cases hempty : queue.vSendMsg = []
  · obtain ⟨queue',sent,hrun,hsound,hrest⟩ := SendQueue.Sound.sendLoop hnext sends
    refine ⟨queue',sent,bind_ok.mpr ⟨data,endMessage_ok hstart m,?_⟩,hsound,hrest.trans hwaiting⟩
    exact (if_pos hempty).trans hrun
  · exact ⟨next,[],bind_ok.mpr ⟨data,endMessage_ok hstart m,if_neg hempty⟩,hnext,hwaiting⟩

theorem Sending.stream (hstart : start.length = 4) {queue : SendQueue}
    {pushed : List (Bytes × Bytes)} {taken : Bytes} (h : Sending start queue pushed taken) :
    queue.Sound ∧ taken ++ queue.waiting = (pushed.map (messageBytes start)).flatten := by
  induction h with
  | idle => exact ⟨⟨by simp,.inl rfl,rfl⟩,rfl⟩
  | push _ m sends hrun ih =>
    obtain ⟨queue',sent,hrun',hsound,hrest⟩ := ih.1.pushMessage hstart sends m
    rw [hrun] at hrun'
    cases hrun'
    refine ⟨hsound,?_⟩
    rw [List.append_assoc,hrest,← List.append_assoc,ih.2]
    simp
  | send _ sends hrun ih =>
    obtain ⟨queue',sent,hrun',hsound,hrest⟩ := SendQueue.Sound.sendLoop ih.1 sends
    rw [socketSendData,hrun'] at hrun
    cases hrun
    refine ⟨hsound,?_⟩
    rw [List.append_assoc,hrest]
    exact ih.2

/-- Nothing that is asserted of the queue fails, and what was taken with what waits is what was pushed. -/
theorem sending_serves (hstart : start.length = 4) {queue : SendQueue}
    {pushed : List (Bytes × Bytes)} {taken : Bytes} (h : Sending start queue pushed taken) :
    queue.nSendSize = queue.vSendMsg.flatten.length ∧
      taken ++ queue.waiting = (pushed.map (messageBytes start)).flatten ∧ ∀ sends,
        (∃ r, socketSendData sends queue = .ok r) ∧
        ∀ m : Bytes × Bytes, ∃ r, pushMessage start sends queue m.1 m.2 = .ok r := by
  obtain ⟨hsound,hstream⟩ := h.stream hstart
  refine ⟨hsound.size,hstream,fun sends => ⟨?_,fun m => ?_⟩⟩
  · obtain ⟨_,_,hrun,-⟩ := SendQueue.Sound.sendLoop hsound sends
    exact ⟨_,hrun⟩
  · obtain ⟨_,_,hrun,-⟩ := hsound.pushMessage hstart sends m
    exact ⟨_,hrun⟩

theorem headerOf_headerFor (hstart : start.length = 4) (m : Bytes × Bytes) :
    headerOf start (headerFor start m).serialize = headerFor start m := by
  have hbound : ∀ n, n % 2^32 < 256^4 := fun n => Nat.mod_lt n (by norm_num)
  have hbytes : (headerFor start m).serialize = id start ++ (id (commandField m.1) ++
      (leBytes 4 (m.2.length % 2^32) ++ (leBytes 4 (checksum m.2) ++ []))) := by
    simp [CMessageHeader.serialize,headerFor]
  rw [headerOf,hbytes,CMessageHeader.unserialize,(readBytes_inverts 4).run_bind hstart,
    (readBytes_inverts 12).run_bind (commandField_length m.1),
    (ser_readdata_inverts 4).run_bind (hbound _),
    (ser_readdata_inverts 4).run_bind (a := checksum m.2) (hbound _)]
  rfl

theorem foldl_messages (hstart : start.length = 4) {ms : List (Bytes × Bytes)}
    (hsize : ∀ m ∈ ms, m.2.length ≤ MAX_PROTOCOL_MESSAGE_LENGTH)
    (done : List (CMessageHeader × Bytes)) :
    (ms.map (messageBytes start)).flatten.foldl (Framing.feed start) ⟨done,.header []⟩ =
      ⟨done ++ ms.map fun m => (headerFor start m,m.2),.header []⟩ := by
  induction ms generalizing done with
  | nil => simp
  | cons m ms ih =>
    have hm := hsize m List.mem_cons_self
    have hmod : (headerFor start m).nMessageSize = m.2.length :=
      Nat.mod_eq_of_lt (hm.trans_lt (by decide))
    have hlength : (headerFor start m).serialize.length = 24 := by
      have := messageBytes_length hstart m
      rw [messageBytes,List.length_append] at this
      omega
    have hone : (messageBytes start m).foldl (Framing.feed start) ⟨done,.header []⟩ =
        ⟨done ++ [(headerFor start m,m.2)],.header []⟩ := by
      rw [messageBytes,List.foldl_append,Framing.foldl_header_full (by rw [hlength]; rfl)
        (List.ne_nil_of_length_pos (by omega)),List.nil_append,headerOf_headerFor hstart,
        Framing.opened,hmod,if_neg (not_lt.mpr hm)]
      split_ifs with hzero
      · rw [List.eq_nil_of_length_eq_zero hzero]
        rfl
      · rw [Framing.foldl_data_full (by rw [hmod]; exact Nat.zero_add _)
          (fun hnil => hzero (by rw [hnil]; rfl)),List.nil_append]
    rw [List.map_cons,List.flatten_cons,List.foldl_append,hone,
      ih fun m' hm' => hsize m' (List.mem_cons_of_mem m hm')]
    simp

omit [Crypto] in
theorem done_foldl_prefix (xs : Bytes) (f : Framing) :
    f.done <+: (xs.foldl (Framing.feed start) f).done := by
  induction xs generalizing f with
  | nil => exact List.prefix_rfl
  | cons x xs ih =>
    refine List.IsPrefix.trans ?_ (ih _)
    obtain ⟨done,current⟩ := f
    unfold Framing.feed Framing.opened
    dsimp only
    cases current with
    | refused hdr => exact List.prefix_rfl
    | header bytes => dsimp only; split_ifs <;> simp
    | data hdr bytes => dsimp only; split_ifs <;> simp

/-- A command as it is pushed: printable, and not longer than its field. -/
structure IsCommand (pszCommand : Bytes) : Prop where
  length_le : pszCommand.length ≤ 12
  printable : ∀ c ∈ pszCommand, 0x20 ≤ c ∧ c ≤ 0x7e

omit [Crypto] in
theorem commandValid_append {pszCommand : Bytes} (h : ∀ c ∈ pszCommand, 0x20 ≤ c ∧ c ≤ 0x7e) (n : ℕ) :
    commandValid (pszCommand ++ List.replicate n 0) = true ∧
      (pszCommand ++ List.replicate n 0).takeWhile (· ≠ 0) = pszCommand := by
  induction pszCommand with
  | nil => cases n <;> simp [List.replicate_succ,commandValid]
  | cons c cs ih =>
    obtain ⟨hvalid,htake⟩ := ih fun c' hc' => h c' (List.mem_cons_of_mem c hc')
    obtain ⟨hlow,hhigh⟩ := h c List.mem_cons_self
    have hzero : c ≠ 0 := fun hc => absurd (hc ▸ hlow) (by decide)
    rw [List.cons_append,commandValid,if_neg hzero,if_neg (by simp [hlow,hhigh]),
      List.takeWhile_cons_of_pos (by simpa using hzero),htake]
    exact ⟨hvalid,rfl⟩

theorem processed_completed {m : Bytes × Bytes} (hcommand : IsCommand m.1)
    (hsize : m.2.length ≤ MAX_PROTOCOL_MESSAGE_LENGTH) :
    (completed (headerFor start m,m.2)).processed start = some m := by
  have hmod : (headerFor start m).nMessageSize = m.2.length :=
    Nat.mod_eq_of_lt (hsize.trans_lt (by decide))
  have hfield : commandField m.1 = m.1 ++ List.replicate (12 - m.1.length) 0 := by
    have hle := hcommand.length_le
    rw [commandField,List.take_append,List.take_of_length_le hle,List.take_replicate]
    congr 2
    omega
  obtain ⟨hvalid,htake⟩ := commandValid_append hcommand.printable (12 - m.1.length)
  rw [← hfield] at hvalid htake
  have hheader : (headerFor start m).isValid start = true := by
    rw [CMessageHeader.isValid,hmod]
    simpa [headerFor,hvalid] using hsize.trans (by decide : MAX_PROTOCOL_MESSAGE_LENGTH ≤ MAX_SIZE)
  have hsum : checksum (m.2.take m.2.length) = (headerFor start m).nChecksum := by
    rw [List.take_length]
    rfl
  simp only [CNetMessage.processed,completed,hheader,hmod,hsum,beq_self_eq_true,Bool.and_true,if_true]
  exact congrArg some (Prod.ext htake rfl)

/-- However a socket took what was pushed, and however the bytes were cut on their way, the peer has
the messages from the first on, each with its command and its payload, and those whose bytes have all
come are complete. -/
theorem messages_delivered (hstart : start.length = 4) {queue : SendQueue}
    {pushed : List (Bytes × Bytes)} {taken : Bytes} (h : Sending start queue pushed taken)
    (hpushed : ∀ m ∈ pushed, IsCommand m.1 ∧ m.2.length ≤ MAX_PROTOCOL_MESSAGE_LENGTH)
    {chunks : List Bytes} (hchunks : chunks.flatten <+: taken) :
    ∃ k msgs rest, receiveAll start [] chunks = .ok (some (true,msgs ++ rest)) ∧
      k ≤ pushed.length ∧ msgs.map (CNetMessage.processed start) = (pushed.take k).map some ∧
      rest.length ≤ 1 ∧ ∀ j ≤ pushed.length,
        ((pushed.take j).map (messageBytes start)).flatten.length ≤ chunks.flatten.length → j ≤ k := by
  have hsizes : ∀ m ∈ pushed, m.2.length ≤ MAX_PROTOCOL_MESSAGE_LENGTH := fun m hm => (hpushed m hm).2
  let all := (pushed.map (messageBytes start)).flatten
  have hprefix : chunks.flatten <+: all := by
    rw [show all = taken ++ queue.waiting from (h.stream hstart).2.symm]
    exact hchunks.trans (List.prefix_append _ _)
  let cut (xs : Bytes) : Framing := xs.foldl (Framing.feed start) {}
  have hall : cut all = ⟨pushed.map fun m => (headerFor start m,m.2),.header []⟩ :=
    foldl_messages hstart hsizes []
  have hmono : ∀ {xs ys : Bytes}, xs <+: ys → (cut xs).done <+: (cut ys).done := by
    rintro xs _ ⟨ys,rfl⟩
    dsimp only [cut]
    rw [List.foldl_append]
    exact done_foldl_prefix ys _
  have hlive : ¬ (cut chunks.flatten).Refused := by
    rintro ⟨hdr,hhdr⟩
    obtain ⟨ys,hys⟩ := hprefix
    have hstuck : cut all = cut chunks.flatten := by
      dsimp only [cut]
      rw [← hys,List.foldl_append,Framing.foldl_of_refused ⟨hdr,hhdr⟩]
    rw [← hstuck,hall] at hhdr
    cases hhdr
  have hnew : Represents start [] {} := ⟨(fun m hm => by cases hm),.inl ⟨rfl,rfl⟩⟩
  obtain ⟨b,vRecvMsg,hrun,hshows,hb⟩ := receiveAll_run chunks hnew (by
    rintro ⟨hdr,hhdr⟩
    cases hhdr)
  obtain rfl : b = true := hb.mpr hlive
  have hdone : (cut chunks.flatten).done <+: pushed.map fun m => (headerFor start m,m.2) := by
    have := hmono hprefix
    rwa [hall] at this
  let k := (cut chunks.flatten).done.length
  have hk : k ≤ pushed.length := by simpa using hdone.length_le
  have htake : (cut chunks.flatten).done = (pushed.take k).map fun m => (headerFor start m,m.2) := by
    rw [List.map_take]
    exact List.prefix_iff_eq_take.mp hdone
  have hprocessed : ((cut chunks.flatten).done.map completed).map (CNetMessage.processed start) =
      (pushed.take k).map some := by
    rw [htake,List.map_map,List.map_map]
    refine List.map_congr_left fun m hm => ?_
    obtain ⟨hcommand,hsize⟩ := hpushed m (List.mem_of_mem_take hm)
    exact processed_completed hcommand hsize
  have hfull : ∀ j ≤ pushed.length,
      ((pushed.take j).map (messageBytes start)).flatten.length ≤ chunks.flatten.length → j ≤ k := by
    intro j hj hle
    have hpart : ((pushed.take j).map (messageBytes start)).flatten <+: chunks.flatten := by
      refine List.prefix_of_prefix_length_le ?_ hprefix hle
      refine ⟨((pushed.drop j).map (messageBytes start)).flatten,?_⟩
      rw [← List.flatten_append,← List.map_append,List.take_append_drop]
    have hcut := (hmono hpart).length_le
    dsimp only [cut] at hcut
    rw [foldl_messages hstart (fun m hm => hsizes m (List.mem_of_mem_take hm)) []] at hcut
    simpa [Nat.min_eq_left hj] using hcut
  rcases hshows.messages with ⟨_,rfl⟩ | ⟨_,msg,rfl,_⟩
  · exact ⟨k,_,[],by rw [List.append_nil]; exact hrun,hk,hprocessed,Nat.zero_le 1,hfull⟩
  · exact ⟨k,_,[msg],hrun,hk,hprocessed,le_rfl,hfull⟩

end

section
local instance sendCrypto : Crypto := digitCrypto

def networkStart : Bytes := [0xf9,0xbe,0xb4,0xd9]
def pingMessage : Bytes × Bytes := ([0x70,0x69,0x6e,0x67],[1,2,3,4,5,6,7,8])

def pongMessage : Bytes × Bytes := ([0x70,0x6f,0x6e,0x67],[8,7,6,5,4,3,2,1])

/-- Two messages are pushed. The socket takes the first at once, and thirteen bytes of the second. -/
theorem pingPong_sending : ∃ queue taken,
    Sending networkStart queue [pingMessage,pongMessage] taken ∧ taken.length = 45 ∧
      queue.waiting.length = 19 := by
  have hping : pushMessage networkStart [40] {} pingMessage.1 pingMessage.2 =
      .ok ({},messageBytes networkStart pingMessage) := by decide
  have hpong : pushMessage networkStart [13] {} pongMessage.1 pongMessage.2 =
      .ok (⟨[messageBytes networkStart pongMessage],32,13⟩,
        (messageBytes networkStart pongMessage).take 13) := by decide
  exact ⟨_,_,(Sending.idle.push pingMessage [40] hping).push pongMessage [13] hpong,by decide,by decide⟩

theorem pingPong_serves : ∃ queue taken, Sending networkStart queue [pingMessage,pongMessage] taken ∧
    queue.waiting ≠ [] ∧
    taken ++ queue.waiting = messageBytes networkStart pingMessage ++
      messageBytes networkStart pongMessage ∧
    ∃ r, socketSendData [7] queue = .ok r := by
  obtain ⟨queue,taken,h,-,hwaiting⟩ := pingPong_sending
  obtain ⟨-,hstream,hnext⟩ := sending_serves rfl h
  exact ⟨queue,taken,h,List.ne_nil_of_length_pos (by omega),by simpa using hstream,(hnext [7]).1⟩

/-- The first message arrives in two pieces, and the second is cut. -/
theorem pingPong_delivered : ∃ queue taken k msgs rest,
    Sending networkStart queue [pingMessage,pongMessage] taken ∧ queue.waiting ≠ [] ∧
    receiveAll networkStart [] [taken.take 9,taken.drop 9] = .ok (some (true,msgs ++ rest)) ∧
    1 ≤ k ∧ msgs.map (CNetMessage.processed networkStart) =
      ([pingMessage,pongMessage].take k).map some := by
  obtain ⟨queue,taken,h,htaken,hwaiting⟩ := pingPong_sending
  have hallowed : ∀ m ∈ [pingMessage,pongMessage],
      IsCommand m.1 ∧ m.2.length ≤ MAX_PROTOCOL_MESSAGE_LENGTH := by
    simp only [List.forall_mem_cons,List.not_mem_nil,false_implies,implies_true,and_true]
    exact ⟨⟨⟨by decide,by simp [pingMessage]⟩,by simp [pingMessage,MAX_PROTOCOL_MESSAGE_LENGTH]⟩,
      ⟨by decide,by simp [pongMessage]⟩,by simp [pongMessage,MAX_PROTOCOL_MESSAGE_LENGTH]⟩
  obtain ⟨k,msgs,rest,hrun,-,hmsgs,-,hfull⟩ := messages_delivered rfl h hallowed
    (show [taken.take 9,taken.drop 9].flatten <+: taken by simp)
  have hcome : [taken.take 9,taken.drop 9].flatten.length = 45 := by simpa using htaken
  have hfirst : (([pingMessage,pongMessage].take 1).map (messageBytes networkStart)).flatten.length =
      32 := by decide
  have hk : 1 ≤ k := hfull 1 (by decide) (by omega)
  exact ⟨queue,taken,k,msgs,rest,h,List.ne_nil_of_length_pos (by omega),hrun,hk,hmsgs⟩

end

end Sidechain
