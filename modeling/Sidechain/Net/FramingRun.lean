import Sidechain.Net.Framing

/-! One round of the receiving loop takes some bytes of the stream, and what is in the buffers then
shows the stream up to there. Received in pieces, the messages are those of the stream, however it
was cut. -/
namespace Sidechain
open Codec

variable {start : Bytes}

theorem overwrite_append {bytes spare src : Bytes} (h : src.length ≤ spare.length) :
    overwrite (bytes ++ spare) bytes.length src =
      .ok (bytes ++ src ++ spare.drop src.length) := by
  rw [overwrite,if_pos (by rw [List.length_append]; omega),List.take_left,← List.drop_drop,
    List.drop_left,List.append_assoc]

theorem subUInt_of_le {a b : ℕ} (h : b ≤ a) (ha : a < 2^32) : subUInt a b = a - b := by
  unfold subUInt
  omega

/-- A message with its whole payload. -/
def completed (m : CMessageHeader × Bytes) : CNetMessage where
  in_data := true
  hdrbuf := []
  hdr := m.1
  nHdrPos := 24
  vRecv := m.2
  nDataPos := m.2.length

/-- A message in its buffers. What they hold behind the bytes received is left open. -/
def Shows (start : Bytes) (msg : CNetMessage) : Current → Prop
  | .header bytes => ∃ spare : Bytes, bytes.length + spare.length = 24 ∧ 0 < spare.length ∧
      msg = { hdr := { pchMessageStart := start }, hdrbuf := bytes ++ spare,
              nHdrPos := bytes.length }
  | .data hdr bytes => ∃ spare : Bytes, hdr.nMessageSize ≤ MAX_PROTOCOL_MESSAGE_LENGTH ∧
      bytes.length < hdr.nMessageSize ∧ bytes.length + spare.length ≤ hdr.nMessageSize ∧
      msg = { in_data := true, hdrbuf := [], hdr, nHdrPos := 24, vRecv := bytes ++ spare,
              nDataPos := bytes.length }
  | .refused hdr => hdr.nMessageSize > MAX_PROTOCOL_MESSAGE_LENGTH ∧
      msg = { in_data := decide (hdr.nMessageSize ≤ MAX_SIZE), hdrbuf := [], hdr, nHdrPos := 24 }

/-- The received messages are those of the stream; the last may be in its buffers. -/
structure Represents (start : Bytes) (vRecvMsg : List CNetMessage) (f : Framing) : Prop where
  sizes : ∀ m ∈ f.done, m.2.length = m.1.nMessageSize
  messages : f.current = .header [] ∧ vRecvMsg = f.done.map completed ∨
    f.current ≠ .header [] ∧
      ∃ msg, vRecvMsg = f.done.map completed ++ [msg] ∧ Shows start msg f.current

variable {vRecvMsg : List CNetMessage} {f : Framing}

theorem Represents.openMessage (h : Represents start vRecvMsg f) (hlive : ¬ f.Refused) :
    ∃ msg, openMessage start vRecvMsg = (f.done.map completed,msg) ∧
      Shows start msg f.current := by
  have hfresh : Shows start { hdr := { pchMessageStart := start } } (.header []) :=
    ⟨List.replicate 24 0,rfl,by decide,rfl⟩
  rcases h.messages with ⟨hcurrent,rfl⟩ | ⟨hcurrent,msg,rfl,hmsg⟩
  · refine ⟨_,?_,hcurrent ▸ hfresh⟩
    unfold Sidechain.openMessage
    rcases List.eq_nil_or_concat' f.done with hnil | ⟨front,m,hconcat⟩
    · rw [hnil]
      rfl
    · have hcomplete : (completed m).complete = true := by
        have hsize := h.sizes m (by rw [hconcat]; simp)
        simp [CNetMessage.complete,completed,hsize]
      rw [hconcat,List.map_append,List.map_singleton,List.getLast?_concat]
      dsimp only
      rw [if_pos hcomplete]
  · have hopen : msg.complete = false := by
      cases hcur : f.current with
      | header bytes =>
        rw [hcur] at hmsg
        obtain ⟨spare,_,_,rfl⟩ := hmsg
        rfl
      | data hdr bytes =>
        rw [hcur] at hmsg
        obtain ⟨spare,_,hlt,_,rfl⟩ := hmsg
        simp [CNetMessage.complete,hlt.ne']
      | refused hdr => exact absurd ⟨hdr,hcur⟩ hlive
    refine ⟨msg,?_,hmsg⟩
    unfold Sidechain.openMessage
    rw [List.getLast?_concat]
    dsimp only
    rw [hopen,if_neg Bool.false_ne_true,List.dropLast_concat]

theorem readHeader_part {msg : CNetMessage} {bytes pch : Bytes}
    (h : Shows start msg (.header bytes)) (hpart : bytes.length + pch.length < 24) :
    ∃ msg', msg.readHeader pch = .ok (msg',pch.length) ∧ msg'.in_data = false ∧
      Shows start msg' (.header (bytes ++ pch)) := by
  obtain ⟨spare,hlen,_,rfl⟩ := h
  have hcopy : min (subUInt 24 bytes.length) pch.length = pch.length := by
    rw [subUInt_of_le (by omega) (by omega)]
    omega
  refine ⟨_,?_,rfl,spare.drop pch.length,?_,?_,rfl⟩
  · unfold CNetMessage.readHeader
    dsimp only
    rw [hcopy,List.take_length,overwrite_append (by omega)]
    dsimp only [bind,Except.bind]
    rw [if_pos hpart,← List.length_append]
    rfl
  · rw [List.length_append,List.length_drop]
    omega
  · rw [List.length_drop]
    omega

theorem readHeader_full {msg : CNetMessage} {bytes pch : Bytes} (h : Shows start msg (.header bytes))
    (hfull : 24 ≤ bytes.length + pch.length) : ∃ hdr n, 0 < n ∧ n ≤ pch.length ∧
      bytes.length + n = 24 ∧ hdr = headerOf start (bytes ++ pch.take n) ∧
      msg.readHeader pch = .ok (if hdr.nMessageSize > MAX_SIZE then
        ({ hdrbuf := [], hdr, nHdrPos := 24 },-1)
        else ({ in_data := true, hdrbuf := [], hdr, nHdrPos := 24 },(n : ℤ))) := by
  obtain ⟨spare,hlen,hpos,rfl⟩ := h
  have hcopy : min (subUInt 24 bytes.length) pch.length = spare.length := by
    rw [subUInt_of_le (by omega) (by omega)]
    omega
  have htake : (pch.take spare.length).length = spare.length := by
    rw [List.length_take]
    omega
  refine ⟨_,spare.length,hpos,by omega,hlen,rfl,?_⟩
  unfold CNetMessage.readHeader
  dsimp only
  rw [hcopy,overwrite_append htake.le,htake,List.drop_length,List.append_nil]
  dsimp only [bind,Except.bind]
  rw [hlen,if_neg (lt_irrefl _),headerOf_run start (by rw [List.length_append,htake,hlen])]
  dsimp only
  split_ifs <;> rfl

theorem readData_part {msg : CNetMessage} {hdr : CMessageHeader} {bytes pch : Bytes}
    (h : Shows start msg (.data hdr bytes)) (hpch : pch ≠ []) : ∃ n spare, 0 < n ∧ n ≤ pch.length ∧
      bytes.length + n + spare.length ≤ hdr.nMessageSize ∧
      (n = pch.length ∨ bytes.length + n = hdr.nMessageSize) ∧
      msg.readData pch =
        .ok ({ in_data := true, hdrbuf := [], hdr, nHdrPos := 24,
               vRecv := bytes ++ pch.take n ++ spare, nDataPos := bytes.length + n },(n : ℤ)) := by
  obtain ⟨spare,hmax,hlt,hle,rfl⟩ := h
  have hmax' : MAX_PROTOCOL_MESSAGE_LENGTH = 2097152 := rfl
  have hpos := List.length_pos_of_ne_nil hpch
  obtain ⟨n,hn⟩ : ∃ n, min (subUInt hdr.nMessageSize bytes.length) pch.length = n := ⟨_,rfl⟩
  have hcopy := hn
  rw [subUInt_of_le (by omega) (by omega)] at hcopy
  have htake : (pch.take n).length = n := by
    rw [List.length_take]
    omega
  -- the buffer holds what was received, and has room for the new bytes within the size
  obtain ⟨room,hroom,hroomLe,hbuf⟩ : ∃ room : Bytes, n ≤ room.length ∧
      bytes.length + room.length ≤ hdr.nMessageSize ∧
      (if (bytes ++ spare).length < (bytes.length + n) % 2^32 then
        resizeBytes (bytes ++ spare)
          (min hdr.nMessageSize ((bytes.length + n + 256 * 1024) % 2^32))
      else bytes ++ spare) = bytes ++ room := by
    rw [List.length_append]
    split_ifs with hgrow
    · refine ⟨spare ++ List.replicate
        (min hdr.nMessageSize (bytes.length + n + 256 * 1024) - (bytes.length + spare.length)) 0,
        ?_,?_,?_⟩
      · rw [List.length_append,List.length_replicate]
        omega
      · rw [List.length_append,List.length_replicate]
        omega
      · have hmod : (bytes.length + n + 256 * 1024) % 2^32 = bytes.length + n + 256 * 1024 :=
          Nat.mod_eq_of_lt (by omega)
        rw [hmod,resizeBytes,List.length_append,List.take_of_length_le,List.append_assoc]
        rw [List.length_append]
        omega
    · exact ⟨spare,by omega,hle,rfl⟩
  refine ⟨n,room.drop n,by omega,by omega,?_,by omega,?_⟩
  · rw [List.length_drop]
    omega
  · unfold CNetMessage.readData
    dsimp only
    rw [hn,hbuf,overwrite_append (by omega),htake]
    rfl

theorem Represents.goesOn {done : List (CMessageHeader × Bytes)}
    (hsizes : ∀ m ∈ done, m.2.length = m.1.nMessageSize) {msg : CNetMessage} {current : Current}
    (hmsg : Shows start msg current) (hcurrent : current ≠ .header []) :
    Represents start (done.map completed ++ [msg]) ⟨done,current⟩ :=
  ⟨hsizes,.inr ⟨hcurrent,msg,rfl,hmsg⟩⟩

theorem Represents.completes {done : List (CMessageHeader × Bytes)}
    (hsizes : ∀ m ∈ done, m.2.length = m.1.nMessageSize) {m : CMessageHeader × Bytes}
    (hm : m.2.length = m.1.nMessageSize) :
    Represents start (done.map completed ++ [completed m]) ⟨done ++ [m],.header []⟩ := by
  refine ⟨fun m' hm' => ?_,.inl ⟨rfl,by rw [List.map_append,List.map_singleton]⟩⟩
  rcases List.mem_append.mp hm' with hm' | hm'
  · exact hsizes m' hm'
  · rw [List.mem_singleton.mp hm']
    exact hm

/-- A round takes some bytes and goes on, or stops at a header that is refused. -/
def Advances (start : Bytes) (fuel : ℕ) (vRecvMsg : List CNetMessage) (f : Framing) (pch : Bytes) :
    Prop :=
  ∃ n vRecvMsg', 0 < n ∧ n ≤ pch.length ∧
    Represents start vRecvMsg' ((pch.take n).foldl (Framing.feed start) f) ∧
    (((pch.take n).foldl (Framing.feed start) f).Refused ∧
        receiveLoop start (fuel + 1) vRecvMsg pch = .ok (some (false,vRecvMsg')) ∨
      ¬ ((pch.take n).foldl (Framing.feed start) f).Refused ∧
        receiveLoop start (fuel + 1) vRecvMsg pch = receiveLoop start fuel vRecvMsg' (pch.drop n))

theorem Advances.goesOn {fuel n : ℕ} {vRecvMsg' : List CNetMessage} {f' : Framing} {pch : Bytes}
    (hn : 0 < n) (hle : n ≤ pch.length)
    (hfeed : (pch.take n).foldl (Framing.feed start) f = f') (hshows : Represents start vRecvMsg' f')
    (hlive : ∀ hdr, f'.current ≠ .refused hdr)
    (hloop : receiveLoop start (fuel + 1) vRecvMsg pch =
      receiveLoop start fuel vRecvMsg' (pch.drop n)) : Advances start fuel vRecvMsg f pch := by
  refine ⟨n,vRecvMsg',hn,hle,?_,.inr ⟨?_,hloop⟩⟩
  · rw [hfeed]
    exact hshows
  · rw [hfeed]
    rintro ⟨hdr,hhdr⟩
    exact hlive hdr hhdr

/-- What one round of the loop is, given what is read. -/
theorem receiveLoop_round {front : List CNetMessage} {msg msg' : CNetMessage} {n : ℤ} {pch : Bytes}
    {b : Bool} (hopen : openMessage start vRecvMsg = (front,msg)) (hpch : pch ≠ [])
    (hin : msg.in_data = b)
    (hread : (if b then msg.readData pch else msg.readHeader pch) = .ok (msg',n)) (fuel : ℕ) :
    receiveLoop start (fuel + 1) vRecvMsg pch =
      if n < 0 then .ok (some (false,front ++ [msg']))
      else if msg'.in_data ∧ msg'.hdr.nMessageSize > MAX_PROTOCOL_MESSAGE_LENGTH then
        .ok (some (false,front ++ [msg']))
      else receiveLoop start fuel (front ++ [msg']) (pch.drop n.toNat) := by
  rw [receiveLoop,if_neg hpch,hopen]
  dsimp only
  cases b
  · rw [hin,if_neg Bool.false_ne_true,show msg.readHeader pch = .ok (msg',n) from hread]
    rfl
  · rw [hin,if_pos rfl,show msg.readData pch = .ok (msg',n) from hread]
    rfl

section round
variable {done : List (CMessageHeader × Bytes)} {msg : CNetMessage} {pch : Bytes}
  (hsizes : ∀ m ∈ done, m.2.length = m.1.nMessageSize)
  (hopen : openMessage start vRecvMsg = (done.map completed,msg)) (hpch : pch ≠ [])
include hsizes hopen hpch

theorem advances_header {bytes : Bytes} (hmsg : Shows start msg (.header bytes)) (fuel : ℕ) :
    Advances start fuel vRecvMsg ⟨done,.header bytes⟩ pch := by
  have hpos := List.length_pos_of_ne_nil hpch
  have hin : msg.in_data = false := by
    obtain ⟨_,_,_,rfl⟩ := hmsg
    rfl
  rcases lt_or_ge (bytes.length + pch.length) 24 with hpart | hfull
  · obtain ⟨msg',hread,hin',hshows⟩ := readHeader_part hmsg hpart
    refine .goesOn hpos le_rfl (by rw [List.take_length,Framing.foldl_header hpart])
      (.goesOn hsizes hshows (by simp [hpch])) (fun _ hrefused => nomatch hrefused) ?_
    rw [receiveLoop_round hopen hpch hin hread,if_neg (by omega),hin',
      if_neg fun hboth => Bool.false_ne_true hboth.1,Int.toNat_natCast]
  · obtain ⟨hdr,n,hn,hle,hlen,hhdr,hread⟩ := readHeader_full hmsg hfull
    have htake : (pch.take n).length = n := by
      rw [List.length_take]
      omega
    have hfeed : (pch.take n).foldl (Framing.feed start) ⟨done,.header bytes⟩ =
        Framing.opened done hdr := by
      rw [Framing.foldl_header_full (by omega) (List.ne_nil_of_length_pos (by omega)),hhdr]
    have hmax : MAX_PROTOCOL_MESSAGE_LENGTH ≤ MAX_SIZE := by decide
    by_cases htoo : hdr.nMessageSize > MAX_PROTOCOL_MESSAGE_LENGTH
    · rw [Framing.opened,if_pos htoo] at hfeed
      refine ⟨n,done.map completed ++ [{ in_data := decide (hdr.nMessageSize ≤ MAX_SIZE),
                                         hdrbuf := [], hdr, nHdrPos := 24 }],hn,hle,?_,
        .inl ⟨?_,?_⟩⟩
      · rw [hfeed]
        exact .goesOn hsizes ⟨htoo,rfl⟩ (by simp)
      · rw [hfeed]
        exact ⟨hdr,rfl⟩
      · by_cases hsize : hdr.nMessageSize > MAX_SIZE
        · rw [if_pos hsize] at hread
          rw [receiveLoop_round hopen hpch hin hread,if_pos (by decide),decide_eq_false (by omega)]
        · rw [if_neg hsize] at hread
          rw [receiveLoop_round hopen hpch hin hread,if_neg (by omega),if_pos ⟨rfl,htoo⟩,
            decide_eq_true (by omega)]
    · rw [if_neg (by omega)] at hread
      have hloop := receiveLoop_round hopen hpch hin hread fuel
      rw [if_neg (by omega),if_neg fun hboth => htoo hboth.2,Int.toNat_natCast] at hloop
      rw [Framing.opened,if_neg htoo] at hfeed
      by_cases hzero : hdr.nMessageSize = 0
      · rw [if_pos hzero] at hfeed
        exact .goesOn hn hle hfeed (.completes hsizes hzero.symm)
          (fun _ hrefused => nomatch hrefused) hloop
      · rw [if_neg hzero] at hfeed
        exact .goesOn hn hle hfeed (.goesOn hsizes
          ⟨[],by omega,by simp; omega,by simp,rfl⟩ (by simp))
          (fun _ hrefused => nomatch hrefused) hloop

theorem advances_data {hdr : CMessageHeader} {bytes : Bytes}
    (hmsg : Shows start msg (.data hdr bytes)) (fuel : ℕ) :
    Advances start fuel vRecvMsg ⟨done,.data hdr bytes⟩ pch := by
  have hin : msg.in_data = true := by
    obtain ⟨_,_,_,_,rfl⟩ := hmsg
    rfl
  have hmax : hdr.nMessageSize ≤ MAX_PROTOCOL_MESSAGE_LENGTH := by
    obtain ⟨_,hmax,_⟩ := hmsg
    exact hmax
  obtain ⟨n,spare,hn,hle,hsize,hend,hread⟩ := readData_part hmsg hpch
  have htake : (pch.take n).length = n := by
    rw [List.length_take]
    omega
  have hloop := receiveLoop_round hopen hpch hin hread fuel
  rw [if_neg (by omega),if_neg fun hboth => absurd hboth.2 (by dsimp only; omega),
    Int.toNat_natCast] at hloop
  by_cases hwhole : bytes.length + n = hdr.nMessageSize
  · have hspare : spare = [] := List.eq_nil_of_length_eq_zero (by omega)
    have hmsg' : completed (hdr,bytes ++ pch.take n) =
        { in_data := true, hdrbuf := [], hdr, nHdrPos := 24, vRecv := bytes ++ pch.take n ++ spare,
          nDataPos := bytes.length + n } := by
      rw [hspare,List.append_nil,completed,List.length_append,htake]
    refine .goesOn hn hle (Framing.foldl_data_full (by omega) (List.ne_nil_of_length_pos (by omega)))
      (.completes hsizes ?_) (fun _ hrefused => nomatch hrefused) ?_
    · rw [List.length_append,htake]
      exact hwhole
    · rw [hloop,hmsg']
  · refine .goesOn hn hle (Framing.foldl_data (by omega)) (.goesOn hsizes
      ⟨spare,hmax,?_,?_,?_⟩ (by simp)) (fun _ hrefused => nomatch hrefused) hloop
    · rw [List.length_append]
      omega
    · rw [List.length_append,htake]
      exact hsize
    · rw [List.length_append,htake]

end round

theorem Represents.advances (h : Represents start vRecvMsg f) (hlive : ¬ f.Refused) {pch : Bytes}
    (hpch : pch ≠ []) (fuel : ℕ) : Advances start fuel vRecvMsg f pch := by
  obtain ⟨msg,hopen,hmsg⟩ := h.openMessage hlive
  obtain ⟨done,current⟩ := f
  cases current with
  | refused hdr => exact absurd ⟨hdr,rfl⟩ hlive
  | header bytes => exact advances_header h.sizes hopen hpch hmsg fuel
  | data hdr bytes => exact advances_data h.sizes hopen hpch hmsg fuel

/-- The loop ends, after all the bytes or at a header that is refused. -/
theorem receiveLoop_run {fuel : ℕ} {pch : Bytes} (h : Represents start vRecvMsg f)
    (hlive : ¬ f.Refused) (hfuel : pch.length ≤ fuel) :
    ∃ b vRecvMsg', receiveLoop start fuel vRecvMsg pch = .ok (some (b,vRecvMsg')) ∧
      Represents start vRecvMsg' (pch.foldl (Framing.feed start) f) ∧
      (b = true ↔ ¬ (pch.foldl (Framing.feed start) f).Refused) := by
  induction fuel generalizing vRecvMsg f pch with
  | zero =>
    obtain rfl := List.eq_nil_of_length_eq_zero (Nat.le_zero.mp hfuel)
    exact ⟨true,vRecvMsg,rfl,h,iff_of_true rfl hlive⟩
  | succ fuel ih =>
    by_cases hpch : pch = []
    · subst hpch
      exact ⟨true,vRecvMsg,rfl,h,iff_of_true rfl hlive⟩
    obtain ⟨n,vRecvMsg',hn,hle,hshows,hround⟩ := h.advances hlive hpch fuel
    have hsplit : pch.foldl (Framing.feed start) f =
        (pch.drop n).foldl (Framing.feed start) ((pch.take n).foldl (Framing.feed start) f) := by
      rw [← List.foldl_append,List.take_append_drop]
    rcases hround with ⟨hrefused,hloop⟩ | ⟨hlive',hloop⟩
    · rw [hsplit,Framing.foldl_of_refused hrefused]
      exact ⟨false,vRecvMsg',hloop,hshows,iff_of_false Bool.false_ne_true (not_not_intro hrefused)⟩
    · rw [hsplit,hloop]
      exact ih hshows hlive' (by rw [List.length_drop]; omega)

theorem receiveAll_run (chunks : List Bytes) (h : Represents start vRecvMsg f)
    (hlive : ¬ f.Refused) :
    ∃ b vRecvMsg', receiveAll start vRecvMsg chunks = .ok (some (b,vRecvMsg')) ∧
      Represents start vRecvMsg' (chunks.flatten.foldl (Framing.feed start) f) ∧
      (b = true ↔ ¬ (chunks.flatten.foldl (Framing.feed start) f).Refused) := by
  induction chunks generalizing vRecvMsg f with
  | nil => exact ⟨true,vRecvMsg,rfl,h,iff_of_true rfl hlive⟩
  | cons pch rest ih =>
    obtain ⟨b,vRecvMsg',hloop,hshows,hb⟩ := receiveLoop_run h hlive le_rfl
    rw [receiveAll,receiveMsgBytes,hloop,List.flatten_cons,List.foldl_append]
    cases b with
    | true => exact ih hshows (hb.mp rfl)
    | false =>
      have hrefused : (pch.foldl (Framing.feed start) f).Refused :=
        not_not.mp fun hlive' => Bool.false_ne_true (hb.mpr hlive')
      rw [Framing.foldl_of_refused hrefused]
      exact ⟨false,vRecvMsg',rfl,hshows,hb⟩

/-- What has been received of the last message. -/
def Current.received (start : Bytes) :
    Current → Bool × ℕ × Bytes × CMessageHeader × ℕ × Bytes
  | .header bytes => (false,bytes.length,bytes,{ pchMessageStart := start },0,[])
  | .data hdr bytes => (true,24,[],hdr,bytes.length,bytes)
  | .refused hdr => (decide (hdr.nMessageSize ≤ MAX_SIZE),24,[],hdr,0,[])

theorem Shows.received {msg : CNetMessage} {current : Current} (h : Shows start msg current) :
    msg.received = current.received start := by
  cases current with
  | header bytes =>
    obtain ⟨spare,_,_,rfl⟩ := h
    simp [CNetMessage.received,Current.received]
  | data hdr bytes =>
    obtain ⟨spare,_,_,_,rfl⟩ := h
    simp [CNetMessage.received,Current.received]
  | refused hdr =>
    obtain ⟨_,rfl⟩ := h
    rfl

theorem Shows.taken {msg : CNetMessage} {current : Current} (h : Shows start msg current) :
    msg.nHdrPos + msg.nDataPos = current.taken := by
  cases current with
  | header bytes =>
    obtain ⟨spare,_,_,rfl⟩ := h
    rfl
  | data hdr bytes =>
    obtain ⟨spare,_,_,_,rfl⟩ := h
    rfl
  | refused hdr =>
    obtain ⟨_,rfl⟩ := h
    rfl

/-- No more than the header buffer, and no more than the size in the header. -/
def CNetMessage.Bounded (msg : CNetMessage) : Prop :=
  msg.nHdrPos ≤ 24 ∧ msg.nDataPos ≤ msg.vRecv.length ∧ msg.vRecv.length ≤ msg.hdr.nMessageSize

theorem Shows.bounded {msg : CNetMessage} {current : Current} (h : Shows start msg current) :
    msg.Bounded := by
  cases current with
  | header bytes =>
    obtain ⟨spare,hlen,_,rfl⟩ := h
    exact ⟨by dsimp only; omega,Nat.zero_le _,Nat.zero_le _⟩
  | data hdr bytes =>
    obtain ⟨spare,_,_,hle,rfl⟩ := h
    exact ⟨le_rfl,by simp,by simpa using hle⟩
  | refused hdr =>
    obtain ⟨_,rfl⟩ := h
    exact ⟨le_rfl,Nat.zero_le _,Nat.zero_le _⟩

theorem Represents.received (h : Represents start vRecvMsg f) :
    vRecvMsg.map CNetMessage.received =
      (f.done.map fun m => (completed m).received) ++
        if f.current = .header [] then [] else [f.current.received start] := by
  rcases h.messages with ⟨hcurrent,rfl⟩ | ⟨hcurrent,msg,rfl,hmsg⟩
  · rw [if_pos hcurrent,List.append_nil,List.map_map]
    rfl
  · rw [if_neg hcurrent,List.map_append,List.map_singleton,List.map_map,hmsg.received]
    rfl

theorem Represents.bytesTaken (h : Represents start vRecvMsg f) :
    bytesTaken vRecvMsg = f.taken := by
  rcases h.messages with ⟨hcurrent,rfl⟩ | ⟨hcurrent,msg,rfl,hmsg⟩
  · rw [Sidechain.bytesTaken,Framing.taken,hcurrent,List.map_map]
    rfl
  · rw [Sidechain.bytesTaken,Framing.taken,List.map_append,List.sum_append,List.map_singleton,
      List.sum_singleton,hmsg.taken,List.map_map]
    rfl

theorem Represents.bounded (h : Represents start vRecvMsg f) {msg : CNetMessage}
    (hmsg : msg ∈ vRecvMsg) : msg.Bounded := by
  have hdone : msg ∈ f.done.map completed → msg.Bounded := by
    intro hmem
    obtain ⟨m,hm,rfl⟩ := List.mem_map.mp hmem
    exact ⟨le_rfl,le_rfl,(h.sizes m hm).le⟩
  rcases h.messages with ⟨_,rfl⟩ | ⟨_,last,rfl,hlast⟩
  · exact hdone hmsg
  · rcases List.mem_append.mp hmsg with hmsg | hmsg
    · exact hdone hmsg
    · rw [List.mem_singleton.mp hmsg]
      exact hlast.bounded

/-- However the bytes are cut, the calls accept or refuse them together, after as many bytes, and
leave the same messages. -/
theorem receiveAll_framing (start : Bytes) (xs ys : List Bytes) (h : xs.flatten = ys.flatten) :
    ∃ b vRecvMsg vRecvMsg', receiveAll start [] xs = .ok (some (b,vRecvMsg)) ∧
      receiveAll start [] ys = .ok (some (b,vRecvMsg')) ∧
      vRecvMsg.map CNetMessage.received = vRecvMsg'.map CNetMessage.received ∧
      bytesTaken vRecvMsg = bytesTaken vRecvMsg' ∧
      (b = true → bytesTaken vRecvMsg = xs.flatten.length) ∧
      ∀ msg ∈ vRecvMsg ++ vRecvMsg', msg.Bounded := by
  have hnew : Represents start [] {} := ⟨(fun _ hm => nomatch hm),.inl ⟨rfl,rfl⟩⟩
  have hlive : ¬ ({} : Framing).Refused := fun ⟨_,hrefused⟩ => nomatch hrefused
  have hshort : ({} : Framing).Short := by
    intro bytes hbytes
    cases hbytes
    exact Nat.zero_lt_succ _
  obtain ⟨b,ms,hx,hshows,hb⟩ := receiveAll_run xs hnew hlive
  obtain ⟨b',ms',hy,hshows',hb'⟩ := receiveAll_run ys hnew hlive
  rw [← h] at hshows' hb'
  obtain rfl : b = b' := Bool.eq_iff_iff.mpr (hb.trans hb'.symm)
  refine ⟨b,ms,ms',hx,hy,?_,?_,fun hacc => ?_,fun msg hmsg => ?_⟩
  · rw [hshows.received,hshows'.received]
  · rw [hshows.bytesTaken,hshows'.bytesTaken]
  · rw [hshows.bytesTaken,Framing.taken_foldl hshort (hb.mp hacc)]
    exact Nat.zero_add _
  · rcases List.mem_append.mp hmsg with hmsg | hmsg
    · exact hshows.bounded hmsg
    · exact hshows'.bounded hmsg

/-- A ping. -/
def pingBytes : Bytes :=
  [0xf9,0xbe,0xb4,0xd9] ++ [0x70,0x69,0x6e,0x67,0,0,0,0,0,0,0,0] ++ [8,0,0,0] ++ [1,2,3,4] ++
    [11,12,13,14,15,16,17,18]

/-- At once, and cut within its header and within its payload. -/
theorem receiveAll_framing_ping :
    ∃ b vRecvMsg vRecvMsg',
      receiveAll [0xf9,0xbe,0xb4,0xd9] [] [pingBytes] = .ok (some (b,vRecvMsg)) ∧
      receiveAll [0xf9,0xbe,0xb4,0xd9] [] [pingBytes.take 3,(pingBytes.drop 3).take 24,
        pingBytes.drop 27] = .ok (some (b,vRecvMsg')) ∧
      vRecvMsg.map CNetMessage.received = vRecvMsg'.map CNetMessage.received ∧
      bytesTaken vRecvMsg = bytesTaken vRecvMsg' :=
  have ⟨b,ms,ms',hx,hy,hsame,htaken,_⟩ := receiveAll_framing [0xf9,0xbe,0xb4,0xd9] [pingBytes]
    [pingBytes.take 3,(pingBytes.drop 3).take 24,pingBytes.drop 27] (by decide)
  ⟨b,ms,ms',hx,hy,hsame,htaken⟩

end Sidechain
