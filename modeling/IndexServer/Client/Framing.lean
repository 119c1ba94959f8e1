import IndexServer.Client.Loops

/-!
# Framing

What `send_` sends is whole blocks behind their number of bytes, and `receive` makes the message out
of them without its trailing spaces, if each call of `recv` delivers what it asks for. For a length
that is not that of whole blocks, `receive` writes behind its string.
-/

namespace IndexServer

namespace Client

open Segments

/-! ### Ways to hand out a stream -/

/-- How many bytes each call of `recv` returns, at least one and at most what it asks for. -/
structure Way where
  sizes : ℕ → ℕ
  sizes_pos : ∀ n, 0 < sizes n
  sizes_le : ∀ n, sizes n ≤ requested n

theorem requested_pos (n : ℕ) : 0 < requested n := by
  cases n with
  | zero => decide
  | succ n => exact bufferSize_pos

def Way.exact : Way := ⟨requested, requested_pos, fun _ => le_rfl⟩

def Way.Full (way : Way) (calls : ℕ) : Prop := ∀ n < calls, way.sizes n = requested n

theorem Way.exact_full (calls : ℕ) : Way.exact.Full calls := fun _ _ => rfl

/-- A peer that hands out the stream. -/
def Way.peer (way : Way) (stream : List UInt8) : Peer where
  deliver n := some (segment stream way.sizes n)
  deliver_le := by
    rintro n _ ⟨⟩
    exact (length_segment_le _ _ _).trans (way.sizes_le n)

theorem Way.delivers (way : Way) (stream : List UInt8) (n : ℕ) :
    ((way.peer stream).deliver n).isSome := rfl

theorem Way.Full.deliver {way : Way} {calls n : ℕ} (h : way.Full calls) (hn : n < calls)
    (stream : List UInt8) : (way.peer stream).deliver n = some (segment stream requested n) :=
  congrArg some (segment_congr fun i hi => h i (hi.trans_lt hn))

/-! ### Receiving whole blocks -/

section receive

variable {mbstowcs_s : Mbstowcs} {peer : Peer} {lenBuf : Vector UInt8 8}
  {rcvBuf : Vector UInt8 bufferSize} {answer : WString} {header : List UInt8}

theorem receive_eq (hheader : peer.recv 0 lenBuf.toList = some header) :
    receive mbstowcs_s peer lenBuf rcvBuf answer =
      receiveBlocks peer header rcvBuf.toList >>= fun s => pure (s.finish mbstowcs_s answer) := by
  rw [receive, hheader]

/-- What `receive` makes of a message. -/
def outcome (mbstowcs_s : Mbstowcs) (body : List UInt8) : Outcome where
  returned := wrap32 body.length
  answer := s2ws mbstowcs_s (body.rdropWhile (· == 32))
  receivedString := body.rdropWhile (· == 32)
  calls := 1 + body.length / bufferSize

theorem receive_whole {blocks : List (List UInt8)}
    (hheader : peer.recv 0 lenBuf.toList = some header)
    (hannounced : longLongOf header = (bufferSize * blocks.length : ℕ))
    (hfills : peer.Fills 1 rcvBuf.toList blocks)
    (hblocks : ∀ block ∈ blocks, block.length = bufferSize) :
    receive mbstowcs_s peer lenBuf rcvBuf answer = .ok (outcome mbstowcs_s blocks.flatten) := by
  have hlength := length_flatten hblocks
  have hmax : blocks.flatten.length ≤ maxSize := by
    have hle := longLongOf_le header
    omega
  rw [receive_eq hheader, receiveBlocks_whole hannounced hfills hblocks, Exec.ok_bind,
    Receiving.finish, if_neg Bool.false_ne_true]
  dsimp only
  rw [take_findLastNotOf 32 hmax, outcome, hlength, Nat.mul_div_cancel_left _ bufferSize_pos]
  rfl

theorem receive_full {way : Way} {body : List UInt8} (hlength : header.length = 8)
    (hannounced : longLongOf header = body.length) (hdvd : bufferSize ∣ body.length)
    (hfull : way.Full (1 + body.length / bufferSize)) :
    receive mbstowcs_s (way.peer (header ++ body)) lenBuf rcvBuf answer =
      .ok (outcome mbstowcs_s body) := by
  obtain ⟨k, hk⟩ := hdvd
  obtain ⟨blocks, rfl, hcount, hblocks⟩ := exists_pieces hk
  rw [hk, Nat.mul_div_cancel_left _ bufferSize_pos] at hfull
  have hsizes : ∀ i piece, (header :: blocks)[i]? = some piece → piece.length = requested i := by
    intro i piece hpiece
    cases i with
    | zero =>
        cases hpiece
        exact hlength
    | succ i => exact hblocks piece (List.mem_of_getElem? hpiece)
  have hdeliver : ∀ i piece, (header :: blocks)[i]? = some piece →
      (way.peer (header ++ blocks.flatten)).deliver i = some piece := by
    intro i piece hpiece
    have hi : i < (header :: blocks).length := (List.getElem?_eq_some_iff.mp hpiece).1
    rw [List.length_cons, hcount, Nat.add_comm] at hi
    rw [hfull.deliver hi, ← List.flatten_cons, segment_flatten hsizes hpiece]
  apply receive_whole
  · apply Peer.recv_full (hdeliver 0 header rfl)
    rw [Vector.length_toList, hlength]
  · rw [hannounced, hk, hcount]
  · apply Peer.fills_of_deliver hblocks Vector.length_toList
    intro i block hblock
    rw [Nat.add_comm]
    exact hdeliver (i + 1) block hblock
  · exact hblocks

/-! ### Lengths that are not the program's own -/

theorem receive_inside_iff (hdelivers : ∀ n, (peer.deliver n).isSome)
    (hheader : peer.recv 0 lenBuf.toList = some header) (hnonneg : 0 ≤ longLongOf header) :
    receive mbstowcs_s peer lenBuf rcvBuf answer ≠ .error .outOfRange ↔
      (bufferSize : Int) ∣ longLongOf header := by
  obtain ⟨dataLength, hannounced⟩ := Int.eq_ofNat_of_zero_le hnonneg
  rw [hannounced, Int.natCast_dvd_natCast]
  constructor
  · intro hinside
    by_contra hdvd
    rw [receive_eq hheader,
      receiveBlocks_overrun hdelivers hannounced hdvd Vector.length_toList] at hinside
    exact hinside rfl
  · rintro ⟨k, rfl⟩
    have hbuffer : rcvBuf.toList.length = bufferSize := Vector.length_toList
    obtain ⟨blocks, hfills, rfl, hblocks⟩ := Peer.exists_fills (n := 0) hdelivers k hbuffer
    rw [receive_whole hheader hannounced hfills hblocks]
    simp

end receive

def oneByte : Peer where
  deliver n := some (if n = 0 then longBytes 1 else [])
  deliver_le := by
    rintro n _ ⟨⟩
    split
    · subst n
      exact (length_longBytes 1).le
    · exact Nat.zero_le _

theorem oneByte_delivers (n : ℕ) : (oneByte.deliver n).isSome := rfl

theorem oneByte_header :
    oneByte.recv 0 (Vector.replicate 8 0).toList = some (longBytes 1) := by decide

theorem oneByte_inside_iff :
    receive mbstowcsUtf8 oneByte (.replicate 8 0) (.replicate bufferSize 0) [] ≠
        .error .outOfRange ↔ (bufferSize : Int) ∣ longLongOf (longBytes 1) :=
  receive_inside_iff oneByte_delivers oneByte_header (by decide)

theorem oneByte_overrun :
    receive mbstowcsUtf8 oneByte (.replicate 8 0) (.replicate bufferSize 0) [] =
        .error .outOfRange ∧
      ¬ ∀ (mbstowcs_s : Mbstowcs) (peer : Peer) (lenBuf : Vector UInt8 8)
        (rcvBuf : Vector UInt8 bufferSize) (answer : WString) (header : List UInt8),
        (∀ n, (peer.deliver n).isSome) → peer.recv 0 lenBuf.toList = some header →
        0 ≤ longLongOf header →
        receive mbstowcs_s peer lenBuf rcvBuf answer ≠ .error .outOfRange := by
  have hannounced : longLongOf (longBytes 1) = (1 : ℕ) := by decide
  have hoverrun : receive mbstowcsUtf8 oneByte (.replicate 8 0) (.replicate bufferSize 0) [] =
      .error .outOfRange := by
    rw [receive_eq oneByte_header,
      receiveBlocks_overrun oneByte_delivers hannounced (by decide) Vector.length_toList]
    rfl
  exact ⟨hoverrun, fun h => h _ _ _ _ _ _ oneByte_delivers oneByte_header (by decide) hoverrun⟩

/-! ### Sending -/

/-- The message and the spaces that `send_` puts behind it. -/
def padded (m : List UInt8) : List UInt8 :=
  m ++ List.replicate (bufferSize - m.length % bufferSize) 32

theorem length_padded (m : List UInt8) :
    (padded m).length = bufferSize * (m.length / bufferSize + 1) := by
  have hlt := Nat.mod_lt m.length bufferSize_pos
  have hmod := Nat.mod_add_div m.length bufferSize
  rw [padded, List.length_append, List.length_replicate, Nat.mul_succ]
  omega

/-- The padding is trimmed with the spaces in front of it. -/
theorem rdropWhile_padded (m : List UInt8) :
    (padded m).rdropWhile (· == 32) = m.rdropWhile (· == 32) := by
  have hall : ∀ k, (m ++ List.replicate k 32).rdropWhile (· == 32) = m.rdropWhile (· == 32) := by
    intro k
    induction k with
    | zero => rw [List.replicate_zero, List.append_nil]
    | succ k ih =>
        rw [List.replicate_succ', ← List.append_assoc, List.rdropWhile_concat_pos _ _ _ (by rfl),
          ih]
  exact hall _

theorem sendBytes_eq {m : List UInt8} (sndBuf : Vector UInt8 bufferSize)
    (hfits : (padded m).length ≤ maxSize) :
    ∃ blocks : List (List UInt8),
      sendBytes (fun _ => false) sndBuf m = .ok (0, longBytes (padded m).length :: blocks) ∧
        blocks.flatten = padded m := by
  obtain ⟨blocks, hflatten, hcount, hblocks⟩ := exists_pieces (length_padded m)
  refine ⟨blocks, ?_, hflatten⟩
  have happend : append m (List.replicate (bufferSize - m.length % bufferSize) 32) =
      .ok (padded m) := by
    rw [padded, List.length_append] at hfits
    exact if_pos hfits
  have hrounds : (padded m).length / bufferSize + 2 = 1 + 1 + blocks.length := by
    rw [length_padded, Nat.mul_div_cancel_left _ bufferSize_pos, hcount, Nat.add_comm]
  rw [sendBytes, happend, Exec.ok_bind, if_neg Bool.false_ne_true]
  dsimp only
  rw [hrounds]
  exact sendLoop_blocks (fun _ => rfl) hblocks Vector.length_toList hflatten.symm

/-- Every message that has room for its padding is sent as its length and whole blocks of that many
bytes, and `receive` makes the message out of them without its trailing spaces; for any other
message `send_` throws. -/
theorem receive_sendBytes (m : List UInt8) (sndBuf : Vector UInt8 bufferSize) :
    ((padded m).length ≤ maxSize →
      ∃ (header : List UInt8) (blocks : List (List UInt8)),
        sendBytes (fun _ => false) sndBuf m = .ok (0, header :: blocks) ∧ header.length = 8 ∧
          longLongOf header = blocks.flatten.length ∧ 0 < blocks.flatten.length ∧
          bufferSize ∣ blocks.flatten.length ∧
          ∀ (mbstowcs_s : Mbstowcs) (lenBuf : Vector UInt8 8) (rcvBuf : Vector UInt8 bufferSize)
            (answer : WString), ∃ outcome,
              receive mbstowcs_s (Way.exact.peer (header ++ blocks.flatten)) lenBuf rcvBuf answer =
                .ok outcome ∧ outcome.receivedString = m.rdropWhile (· == 32)) ∧
    (maxSize < (padded m).length → sendBytes (fun _ => false) sndBuf m = .error .thrown) := by
  constructor
  · intro hfits
    obtain ⟨blocks, hsent, hflatten⟩ := sendBytes_eq sndBuf hfits
    have hannounced := longLongOf_longBytes hfits
    have hdvd : bufferSize ∣ (padded m).length := ⟨_, length_padded m⟩
    refine ⟨_, blocks, hsent, length_longBytes _, ?_⟩
    rw [hflatten]
    refine ⟨hannounced, ?_, hdvd, fun mbstowcs_s lenBuf rcvBuf answer => ?_⟩
    · rw [length_padded]
      exact Nat.mul_pos bufferSize_pos (Nat.succ_pos _)
    · exact ⟨_, receive_full (length_longBytes _) hannounced hdvd (Way.exact_full _),
        rdropWhile_padded m⟩
  · intro hlarge
    rw [padded, List.length_append] at hlarge
    have happend : append m (List.replicate (bufferSize - m.length % bufferSize) 32) =
        .error .thrown := if_neg (Nat.not_le.mpr hlarge)
    rw [sendBytes, happend]
    rfl

end Client

end IndexServer
