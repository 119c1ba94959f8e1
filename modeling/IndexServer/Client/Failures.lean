import IndexServer.Client.Framing

/-!
# Calls that fail

`send_` and `receive` both stop at the first call that returns an error. A connection that the
other side has closed is no error to `receive`: each call of `recv` returns zero, the array keeps
the block of the call before, and the string is filled with copies of it.
-/

namespace IndexServer

namespace Client

/-! ### The loop of `send_` -/

/-- The first call that fails ends the loop, and the blocks in front of it are sent. -/
theorem sendLoop_cut {fails : ℕ → Bool} {smessage : List UInt8} {fuel k : ℕ}
    {blocks : List (List UInt8)} {s : Sending} (hfail : fails (s.sent.length + k) = true)
    (hbefore : ∀ i < k, fails (s.sent.length + i) = false) (hk : k < blocks.length)
    (hblocks : ∀ block ∈ blocks, block.length = bufferSize) (hbuf : s.sndBuf.length = bufferSize)
    (hleft : smessage.drop s.i = blocks.flatten) :
    sendLoop fails smessage smessage.length (fuel + 1 + blocks.length) s =
      .ok (-1, s.sent ++ blocks.take k) := by
  induction blocks generalizing s k with
  | nil => exact absurd hk (Nat.not_lt_zero k)
  | cons block rest ih =>
      obtain ⟨hblock, hrest⟩ := List.forall_mem_cons.mp hblocks
      rw [List.flatten_cons] at hleft
      have hlength := congrArg List.length hleft
      rw [List.length_drop, List.length_append, hblock] at hlength
      have hpos := bufferSize_pos
      have hcopy : memcpy s.sndBuf 0 smessage s.i bufferSize = .ok block := by
        rw [memcpy_eq (by omega) (by omega), hleft, List.take_zero, List.nil_append,
          List.take_left' hblock, List.drop_eq_nil_of_le (by omega), List.append_nil]
      have hnext : smessage.drop (s.i + bufferSize) = rest.flatten := by
        rw [← List.drop_drop, hleft, List.drop_left' hblock]
      rw [List.length_cons, ← Nat.add_assoc, sendLoop, if_pos (by omega), hcopy, Exec.ok_bind]
      cases k with
      | zero =>
          rw [Nat.add_zero] at hfail
          rw [if_pos hfail, List.take_zero, List.append_nil]
          rfl
      | succ k =>
          have hfirst := hbefore 0 (Nat.succ_pos k)
          rw [Nat.add_zero] at hfirst
          have hshift : ∀ i, (s.sent ++ [block]).length + i = s.sent.length + (i + 1) := by
            intro i
            rw [List.length_append, List.length_singleton]
            omega
          rw [hfirst, if_neg Bool.false_ne_true, ih (k := k) (by rw [hshift]; exact hfail)
            (fun i hi => by rw [hshift]; exact hbefore (i + 1) (Nat.succ_lt_succ hi))
            (Nat.lt_of_succ_lt_succ hk) hrest hblock hnext, List.append_assoc]
          rfl

theorem sendBytes_cut {fails : ℕ → Bool} {m : List UInt8} {k : ℕ}
    (sndBuf : Vector UInt8 bufferSize) (hfits : (padded m).length ≤ maxSize)
    (hbefore : ∀ i ≤ k, fails i = false) (hfail : fails (k + 1) = true)
    (hk : k < (padded m).length / bufferSize) :
    ∃ blocks : List (List UInt8), blocks.flatten = padded m ∧
      (∀ block ∈ blocks, block.length = bufferSize) ∧
      sendBytes fails sndBuf m = .ok (-1, longBytes (padded m).length :: blocks.take k) := by
  obtain ⟨blocks, hflatten, hcount, hblocks⟩ := Segments.exists_pieces (length_padded m)
  refine ⟨blocks, hflatten, hblocks, ?_⟩
  have happend : append m (List.replicate (bufferSize - m.length % bufferSize) 32) =
      .ok (padded m) := by
    rw [padded, List.length_append] at hfits
    exact if_pos hfits
  have hquotient : (padded m).length / bufferSize = blocks.length := by
    rw [length_padded, Nat.mul_div_cancel_left _ bufferSize_pos, hcount]
  have hheader : ¬ fails 0 = true := by
    rw [hbefore 0 (Nat.zero_le k)]
    exact Bool.false_ne_true
  rw [hquotient] at hk
  rw [sendBytes, happend, Exec.ok_bind, if_neg hheader]
  dsimp only
  rw [hquotient, show blocks.length + 2 = 1 + 1 + blocks.length by omega]
  refine sendLoop_cut ?_ (fun i hi => ?_) hk hblocks Vector.length_toList hflatten.symm
  · rw [List.length_singleton, Nat.add_comm]
    exact hfail
  · rw [List.length_singleton]
    exact hbefore (1 + i) (by omega)

/-! ### A closed connection -/

/-- The calls of `recv` deliver the pieces, and behind them the connection is closed. -/
def closed (pieces : List (List UInt8)) : Peer where
  deliver n := some ((pieces[n]?.getD []).take (requested n))
  deliver_le := by
    rintro n _ ⟨⟩
    exact List.length_take_le _ _

theorem closed_deliver {pieces : List (List UInt8)} {n : ℕ} {piece : List UInt8}
    (hpiece : pieces[n]? = some piece) (hlength : piece.length = requested n) :
    (closed pieces).deliver n = some piece := by
  rw [closed]
  dsimp only
  rw [hpiece, Option.getD_some, ← hlength, List.take_length]

theorem closed_behind {pieces : List (List UInt8)} {n : ℕ} (hn : pieces.length ≤ n) :
    (closed pieces).deliver n = some [] := by
  rw [closed]
  dsimp only
  rw [List.getElem?_eq_none hn, Option.getD_none, List.take_nil]

section closed

variable {peer : Peer} {n : ℕ} {buffer : List UInt8}

theorem fills_replicate (hclosed : ∀ i, peer.deliver (n + i) = some []) (k : ℕ) :
    peer.Fills n buffer (List.replicate k buffer) := by
  induction k generalizing n with
  | zero => exact trivial
  | succ k ih =>
      refine ⟨?_, ih fun i => ?_⟩
      · have hempty := hclosed 0
        rw [Nat.add_zero] at hempty
        rw [Peer.recv, hempty, Option.map_some, List.nil_append, List.length_nil, List.drop_zero]
      · rw [Nat.add_assoc]
        exact hclosed (1 + i)

/-- The blocks that come, and copies of the last of them. -/
theorem fills_closed {blocks : List (List UInt8)}
    (hblocks : ∀ block ∈ blocks, block.length = bufferSize) (hbuffer : buffer.length = bufferSize)
    (hdeliver : ∀ i block, blocks[i]? = some block → peer.deliver (n + i) = some block)
    (hclosed : ∀ i, blocks.length ≤ i → peer.deliver (n + i) = some []) (k : ℕ) :
    peer.Fills n buffer (blocks ++ List.replicate k (blocks.getLastD buffer)) := by
  induction blocks generalizing n buffer with
  | nil => exact fills_replicate (fun i => hclosed i (Nat.zero_le i)) k
  | cons block rest ih =>
      obtain ⟨hblock, hrest⟩ := List.forall_mem_cons.mp hblocks
      rw [List.getLastD_cons]
      refine ⟨Peer.recv_full (hdeliver 0 block rfl) (hbuffer.trans hblock.symm),
        ih hrest hblock (fun i next hi => ?_) fun i hi => ?_⟩
      · rw [Nat.add_assoc, Nat.add_comm 1 i]
        exact hdeliver (i + 1) next hi
      · rw [Nat.add_assoc, Nat.add_comm 1 i]
        exact hclosed (i + 1) (Nat.succ_le_succ hi)

end closed

/-- Where a call of `send` fails and the connection is closed, `receive` still returns the length
that the header announces, and the missing blocks are copies of the last one that came. -/
theorem receive_cut {fails : ℕ → Bool} {w : WString} {k : ℕ} (sndBuf : Vector UInt8 bufferSize)
    (hfits : (padded (ws2s w)).length ≤ maxSize) (hbefore : ∀ i ≤ k, fails i = false)
    (hfail : fails (k + 1) = true) (hk : k < (padded (ws2s w)).length / bufferSize) :
    ∃ (header : List UInt8) (blocks : List (List UInt8)), blocks.flatten = padded (ws2s w) ∧
      (∀ block ∈ blocks, block.length = bufferSize) ∧
      send_ fails sndBuf w = .ok (-1, header :: blocks.take k) ∧
      ∀ (mbstowcs_s : Mbstowcs) (lenBuf : Vector UInt8 8) (rcvBuf : Vector UInt8 bufferSize)
        (answer : WString), ∃ received,
          receive mbstowcs_s (closed (header :: blocks.take k)) lenBuf rcvBuf answer =
            .ok received ∧ received.returned = wrap32 (padded (ws2s w)).length ∧
          received.receivedString = (blocks.take k ++ List.replicate (blocks.length - k)
            ((blocks.take k).getLastD rcvBuf.toList)).flatten.rdropWhile (· == 32) := by
  obtain ⟨blocks, hflatten, hblocks, hsent⟩ := sendBytes_cut sndBuf hfits hbefore hfail hk
  refine ⟨_, blocks, hflatten, hblocks, hsent, fun mbstowcs_s lenBuf rcvBuf answer => ?_⟩
  have hquotient : (padded (ws2s w)).length = bufferSize * blocks.length := by
    rw [← hflatten, Segments.length_flatten hblocks]
  rw [hquotient, Nat.mul_div_cancel_left _ bufferSize_pos] at hk
  generalize hheader : longBytes (padded (ws2s w)).length = header
  have hlength : header.length = 8 := hheader ▸ length_longBytes _
  have hannounced : longLongOf header = (padded (ws2s w)).length :=
    hheader ▸ longLongOf_longBytes hfits
  generalize hfront : blocks.take k = front
  have hcame : ∀ block ∈ front, block.length = bufferSize := fun block hmem =>
    hblocks block (List.mem_of_mem_take (hfront ▸ hmem))
  have hcount : front.length = k := by
    rw [← hfront, List.length_take_of_le hk.le]
  -- the array holds the last block that came, or what it held at first
  have hlast : (front.getLastD rcvBuf.toList).length = bufferSize := by
    obtain rfl | ⟨rest, block, rfl⟩ := front.eq_nil_or_concat'
    · exact Vector.length_toList
    · rw [List.getLastD_concat]
      exact hcame block (List.mem_append_right _ (List.mem_singleton_self block))
  have hfills : (closed (header :: front)).Fills 1 rcvBuf.toList
      (front ++ List.replicate (blocks.length - k) (front.getLastD rcvBuf.toList)) := by
    refine fills_closed hcame Vector.length_toList (fun i block hi => ?_) (fun i hi => ?_) _
    · rw [Nat.add_comm]
      exact closed_deliver hi (hcame block (List.mem_of_getElem? hi))
    · rw [Nat.add_comm]
      exact closed_behind (Nat.succ_le_succ hi)
  have hwhole : ∀ block ∈ front ++ List.replicate (blocks.length - k)
      (front.getLastD rcvBuf.toList), block.length = bufferSize := by
    intro block hmem
    obtain hmem | hmem := List.mem_append.mp hmem
    · exact hcame block hmem
    · rw [List.eq_of_mem_replicate hmem]
      exact hlast
  have htotal : (front ++ List.replicate (blocks.length - k)
      (front.getLastD rcvBuf.toList)).length = blocks.length := by
    rw [List.length_append, List.length_replicate, hcount]
    omega
  have hrecv : (closed (header :: front)).recv 0 lenBuf.toList = some header :=
    Peer.recv_full (closed_deliver rfl hlength) (Vector.length_toList.trans hlength.symm)
  refine ⟨_, receive_whole hrecv ?_ hfills hwhole, ?_, rfl⟩
  · rw [hannounced, hquotient, htotal]
  · rw [outcome, Segments.length_flatten hwhole, htotal, hquotient]

/-- A block of the letter "a": the call of `send` behind it, for the block of spaces, fails. -/
def letters : WString := List.replicate bufferSize 97

theorem receive_cut_letters : ∃ (header : List UInt8) (blocks : List (List UInt8)),
    blocks.flatten = padded (ws2s letters) ∧
      send_ (· == 2) (.replicate bufferSize 0) letters = .ok (-1, header :: blocks.take 1) ∧
      ∃ received, receive mbstowcsUtf8 (closed (header :: blocks.take 1)) (.replicate 8 0)
        (.replicate bufferSize 0) [] = .ok received ∧ received.returned = 2 * bufferSize := by
  have hbytes : (ws2s letters).length = bufferSize := by
    rw [(length_ws2s_eq_iff letters).mpr fun u hu => ?_, letters, List.length_replicate]
    rw [List.eq_of_mem_replicate hu]
    decide
  have hlength : (padded (ws2s letters)).length = 2 * bufferSize := by
    rw [length_padded, hbytes]
    decide
  have hbefore : ∀ i ≤ 1, (i == 2) = false := by
    intro i hi
    exact beq_false_of_ne (by omega)
  obtain ⟨header, blocks, hflatten, -, hsent, hreceived⟩ :=
    receive_cut (.replicate bufferSize 0) (by rw [hlength]; decide) hbefore rfl
      (by rw [hlength]; decide)
  obtain ⟨received, hok, hreturned, -⟩ :=
    hreceived mbstowcsUtf8 (.replicate 8 0) (.replicate bufferSize 0) []
  refine ⟨header, blocks, hflatten, hsent, received, hok, ?_⟩
  rw [hreturned, hlength]
  decide

/-! ### Errors of `recv` -/

section errors

variable {peer : Peer} {fuel : ℕ} {s t : Receiving}

/-- What the loop of `receive` keeps: the calls so far have delivered, and the blocks copied so far
lie inside the string. -/
structure Receiving.Inside (peer : Peer) (s : Receiving) : Prop where
  going : s.failed = false
  delivered : ∀ n < s.calls, (peer.deliver n).isSome = true
  blocks : bufferSize ∣ s.i
  within : s.i ≤ s.receivedString.length
  length : s.dataLength = s.receivedString.length

def Receiving.Ended (peer : Peer) (s : Receiving) : Prop :=
  if s.failed then
    ∃ n, s.calls = n + 1 ∧ peer.deliver n = none ∧ ∀ i < n, (peer.deliver i).isSome = true
  else (∀ n < s.calls, (peer.deliver n).isSome = true) ∧ (bufferSize : Int) ∣ s.dataLength

theorem memcpy_result {target source result : List UInt8} {i j count : ℕ}
    (h : memcpy target i source j count = .ok result) :
    i + count ≤ target.length ∧ result.length = target.length := by
  rw [memcpy] at h
  split at h
  case isTrue hin =>
    cases h
    refine ⟨hin.1, ?_⟩
    rw [List.length_append, List.length_append, List.length_take_of_le (by omega),
      List.length_take_of_le (by rw [List.length_drop]; omega), List.length_drop]
    omega
  case isFalse => cases h

theorem Receiving.Inside.copied {rcvBuf receivedString : List UInt8} (hs : s.Inside peer)
    (hrecv : peer.recv s.calls s.rcvBuf = some rcvBuf)
    (hcopy : memcpy s.receivedString s.i rcvBuf 0 bufferSize = .ok receivedString) :
    Receiving.Inside peer
      { s with receivedString, rcvBuf, i := s.i + bufferSize, calls := s.calls + 1 } := by
  obtain ⟨hroom, hlength⟩ := memcpy_result hcopy
  obtain ⟨bytes, hbytes, -⟩ := Option.map_eq_some_iff.mp hrecv
  refine ⟨hs.going, fun n hn => ?_, Nat.dvd_add_self_right.mpr hs.blocks, ?_, ?_⟩
  · obtain hn | rfl := Nat.lt_or_eq_of_le (Nat.le_of_lt_succ hn)
    · exact hs.delivered n hn
    · rw [hbytes]
      rfl
  · dsimp only
    rw [hlength]
    exact hroom
  · dsimp only
    rw [hlength]
    exact hs.length

theorem Receiving.Inside.loop (hs : s.Inside peer) (h : receiveLoop peer fuel s = .ok t) :
    t.dataLength = s.dataLength ∧ t.Ended peer := by
  induction fuel generalizing s with
  | zero => cases h
  | succ fuel ih =>
      rw [receiveLoop] at h
      split at h
      case isTrue hleft =>
        cases hrecv : peer.recv s.calls s.rcvBuf with
        | none =>
            rw [hrecv] at h
            cases h
            exact ⟨rfl, s.calls, rfl, Option.map_eq_none_iff.mp hrecv, hs.delivered⟩
        | some rcvBuf =>
            rw [hrecv] at h
            obtain ⟨receivedString, hcopy, h⟩ := Exec.bind_eq_ok.mp h
            have hrest := ih (hs.copied hrecv hcopy) h
            exact hrest
      case isFalse hdone =>
        have hi : s.dataLength = s.i := by
          have hwithin := hs.within
          have hlength := hs.length
          omega
        obtain rfl : s = t := Except.ok.inj h
        refine ⟨rfl, ?_⟩
        rw [Receiving.Ended, hs.going, if_neg Bool.false_ne_true, hi]
        exact ⟨hs.delivered, Int.natCast_dvd_natCast.mpr hs.blocks⟩

theorem Receiving.Inside.returns (hs : s.Inside peer)
    (hfuel : s.receivedString.length < s.i + bufferSize * fuel) :
    receiveLoop peer fuel s ≠ .error .noReturn := by
  induction fuel generalizing s with
  | zero =>
      have hwithin := hs.within
      omega
  | succ fuel ih =>
      rw [receiveLoop]
      split
      · cases hrecv : peer.recv s.calls s.rcvBuf with
        | none =>
            intro heq
            cases heq
        | some rcvBuf =>
            dsimp only
            cases hcopy : memcpy s.receivedString s.i rcvBuf 0 bufferSize with
            | error fault =>
                rw [memcpy] at hcopy
                split at hcopy
                · cases hcopy
                · cases hcopy
                  intro heq
                  cases heq
            | ok receivedString =>
                refine ih (hs.copied hrecv hcopy) ?_
                dsimp only
                rw [(memcpy_result hcopy).2]
                rw [Nat.mul_succ] at hfuel
                omega
      · intro heq
        cases heq

theorem wrap32_ne {x : Int} (hx : (bufferSize : Int) ∣ x) : wrap32 x ≠ -1 := by
  intro heq
  have hmod := Int.bmod_emod (x := x) (m := 2 ^ 32)
  rw [wrap32] at heq
  rw [heq] at hmod
  obtain ⟨k, rfl⟩ := hx
  rw [bufferSize] at hmod
  omega

theorem inside_start (hheader : (peer.deliver 0).isSome = true) (buffer : List UInt8)
    {dataLength : Int} {receivedString : List UInt8}
    (hresize : resize [] dataLength = .ok receivedString) :
    Receiving.Inside peer
      { dataLength, receivedString, rcvBuf := buffer, i := 0, calls := 1, failed := false } ∧
      receivedString.length = dataLength.toNat := by
  rw [resize] at hresize
  split at hresize
  case isTrue hrange =>
    cases hresize
    have hlength : (([] : List UInt8).take dataLength.toNat ++
        List.replicate (dataLength.toNat - ([] : List UInt8).length) 0).length =
          dataLength.toNat := by
      simp
    refine ⟨⟨rfl, fun n hn => ?_, Nat.dvd_zero _, Nat.zero_le _, ?_⟩, hlength⟩
    · rw [Nat.lt_one_iff.mp hn]
      exact hheader
    · dsimp only
      rw [hlength, Int.toNat_of_nonneg hrange.1]
  case isFalse => cases hresize

theorem receiveBlocks_ended (hheader : (peer.deliver 0).isSome = true)
    (header buffer : List UInt8) :
    receiveBlocks peer header buffer ≠ .error .noReturn ∧
      ∀ t, receiveBlocks peer header buffer = .ok t → t.Ended peer := by
  rw [receiveBlocks]
  cases hresize : resize [] (longLongOf header) with
  | error fault =>
      rw [resize] at hresize
      split at hresize
      · cases hresize
      · cases hresize
        exact ⟨(by rintro ⟨⟩), (by rintro _ ⟨⟩)⟩
  | ok receivedString =>
      obtain ⟨hs, hlength⟩ := inside_start hheader buffer hresize
      rw [Exec.ok_bind]
      refine ⟨hs.returns ?_, fun t ht => (hs.loop ht).2⟩
      dsimp only
      rw [hlength, bufferSize]
      omega

end errors

end Client

end IndexServer
