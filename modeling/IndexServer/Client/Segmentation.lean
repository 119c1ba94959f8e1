import IndexServer.Client.Framing

/-!
# Segmentation

A stream may be handed out in many ways. `receive` takes each call of `recv` for a full one, so
after a short one it still makes as many calls and leaves the end of the message unread.
-/

namespace IndexServer

namespace Client

open Segments

/-- The bytes that the first calls deliver. -/
def Peer.delivered (peer : Peer) (calls : ℕ) : List UInt8 :=
  (List.range calls).flatMap fun n => (peer.deliver n).getD []

theorem Way.delivered_eq (way : Way) (stream : List UInt8) (calls : ℕ) :
    (way.peer stream).delivered calls = stream.take (total way.sizes calls) :=
  flatMap_segment stream way.sizes calls

/-- The header and the body of a message. -/
def message (body : List UInt8) : List UInt8 := longBytes body.length ++ body

theorem length_message (body : List UInt8) : (message body).length = 8 + body.length := by
  rw [message, List.length_append, length_longBytes]

theorem total_requested (calls : ℕ) : total requested (1 + calls) = 8 + bufferSize * calls := by
  rw [Nat.add_comm, total_succ']
  exact congrArg (8 + ·) (total_const bufferSize calls)

/-- `receive` leaves the string in `*answer` and consumes the whole message. -/
def Way.Delivers (mbstowcs_s : Mbstowcs) (body : List UInt8) (way : Way) (lenBuf : Vector UInt8 8)
    (rcvBuf : Vector UInt8 bufferSize) (answer : WString) : Prop :=
  ∃ outcome, receive mbstowcs_s (way.peer (message body)) lenBuf rcvBuf [] = .ok outcome ∧
    outcome.answer = answer ∧ (way.peer (message body)).delivered outcome.calls = message body

section way

variable {mbstowcs_s : Mbstowcs} {body : List UInt8} {way : Way} {lenBuf : Vector UInt8 8}
  {rcvBuf : Vector UInt8 bufferSize}

/-- If the array for the header holds it already, a short call leaves it so. -/
theorem Way.recv_header (way : Way) (hlenBuf : lenBuf.toList = longBytes body.length) :
    (way.peer (message body)).recv 0 lenBuf.toList = some (longBytes body.length) := by
  have hle : way.sizes 0 ≤ (longBytes body.length).length :=
    (way.sizes_le 0).trans_eq (length_longBytes _).symm
  have hsegment : segment (message body) way.sizes 0 =
      (longBytes body.length).take (way.sizes 0) := List.take_append_of_le_length hle
  rw [Peer.recv, Way.peer]
  dsimp only
  rw [Option.map_some, hsegment, hlenBuf, List.length_take_of_le hle, List.take_append_drop]

variable (hdvd : bufferSize ∣ body.length)
include hdvd

theorem Way.consumes_iff :
    (way.peer (message body)).delivered (1 + body.length / bufferSize) = message body ↔
      way.Full (1 + body.length / bufferSize) := by
  have hbounds : total requested (1 + body.length / bufferSize) = (message body).length := by
    rw [total_requested, length_message, Nat.mul_div_cancel' hdvd]
  have hle := total_le way.sizes_le (1 + body.length / bufferSize)
  rw [Way.delivered_eq, List.take_eq_self_iff, ← hbounds, Way.Full, ← total_eq_iff way.sizes_le]
  omega

variable (hmax : body.length ≤ maxSize)
include hmax

theorem Way.Full.delivers (hfull : way.Full (1 + body.length / bufferSize)) :
    way.Delivers mbstowcs_s body lenBuf rcvBuf (s2ws mbstowcs_s (body.rdropWhile (· == 32))) :=
  ⟨_, receive_full (length_longBytes _) (longLongOf_longBytes hmax) hdvd hfull, rfl,
    (consumes_iff hdvd).mpr hfull⟩

theorem Way.full_of_delivers {answer : WString}
    (hlenBuf : lenBuf.toList = longBytes body.length)
    (h : way.Delivers mbstowcs_s body lenBuf rcvBuf answer) :
    way.Full (1 + body.length / bufferSize) := by
  obtain ⟨found, hrun, _, hconsumed⟩ := h
  obtain ⟨k, hk⟩ := hdvd
  have hbuffer : rcvBuf.toList.length = bufferSize := Vector.length_toList
  obtain ⟨blocks, hfills, rfl, hblocks⟩ :=
    Peer.exists_fills (n := 0) (way.delivers (message body)) k hbuffer
  have hannounced : longLongOf (longBytes body.length) = (bufferSize * blocks.length : ℕ) :=
    (longLongOf_longBytes hmax).trans (congrArg _ hk)
  rw [receive_whole (way.recv_header hlenBuf) hannounced hfills hblocks, Except.ok.injEq] at hrun
  have hcalls : found.calls = 1 + body.length / bufferSize := by
    rw [← hrun, outcome, length_flatten hblocks, hk]
  rw [hcalls] at hconsumed
  exact (consumes_iff ⟨_, hk⟩).mp hconsumed

end way

theorem exists_lenBuf (body : List UInt8) :
    ∃ lenBuf : Vector UInt8 8, lenBuf.toList = longBytes body.length :=
  ⟨⟨(longBytes body.length).toArray, length_longBytes _⟩, rfl⟩

theorem receive_same_iff (mbstowcs_s : Mbstowcs) {body : List UInt8}
    (hdvd : bufferSize ∣ body.length) (hmax : body.length ≤ maxSize) (way₁ way₂ : Way) :
    (∀ (lenBuf₁ lenBuf₂ : Vector UInt8 8) (rcvBuf₁ rcvBuf₂ : Vector UInt8 bufferSize),
      ∃ answer, way₁.Delivers mbstowcs_s body lenBuf₁ rcvBuf₁ answer ∧
        way₂.Delivers mbstowcs_s body lenBuf₂ rcvBuf₂ answer) ↔
      way₁.Full (1 + body.length / bufferSize) ∧ way₂.Full (1 + body.length / bufferSize) := by
  constructor
  · intro h
    obtain ⟨lenBuf, hlenBuf⟩ := exists_lenBuf body
    obtain ⟨answer, h₁, h₂⟩ := h lenBuf lenBuf (.replicate _ 0) (.replicate _ 0)
    exact ⟨Way.full_of_delivers hdvd hmax hlenBuf h₁, Way.full_of_delivers hdvd hmax hlenBuf h₂⟩
  · rintro ⟨hfull₁, hfull₂⟩
    intro lenBuf₁ lenBuf₂ rcvBuf₁ rcvBuf₂
    exact ⟨_, hfull₁.delivers hdvd hmax, hfull₂.delivers hdvd hmax⟩

def oneBlock : List UInt8 := List.replicate bufferSize 97

theorem length_oneBlock : oneBlock.length = bufferSize := List.length_replicate

/-- The first call for a block returns a single byte. -/
def shortBlock : Way where
  sizes n := if n = 1 then 1 else requested n
  sizes_pos n := by
    split
    · exact Nat.one_pos
    · exact requested_pos n
  sizes_le n := by
    split
    · exact requested_pos n
    · exact le_rfl

theorem receive_same_oneBlock :
    (∀ (lenBuf₁ lenBuf₂ : Vector UInt8 8) (rcvBuf₁ rcvBuf₂ : Vector UInt8 bufferSize),
      ∃ answer, Way.exact.Delivers mbstowcsUtf8 oneBlock lenBuf₁ rcvBuf₁ answer ∧
        shortBlock.Delivers mbstowcsUtf8 oneBlock lenBuf₂ rcvBuf₂ answer) ↔
      Way.exact.Full (1 + oneBlock.length / bufferSize) ∧
        shortBlock.Full (1 + oneBlock.length / bufferSize) :=
  receive_same_iff mbstowcsUtf8 (by rw [length_oneBlock]) (by rw [length_oneBlock]; decide) _ _

theorem shortBlock_not_consumed : ¬ ∀ (mbstowcs_s : Mbstowcs) (body : List UInt8),
    0 < body.length → bufferSize ∣ body.length → body.length ≤ maxSize →
    ∀ (way₁ way₂ : Way) (lenBuf₁ lenBuf₂ : Vector UInt8 8)
      (rcvBuf₁ rcvBuf₂ : Vector UInt8 bufferSize),
      ∃ answer, way₁.Delivers mbstowcs_s body lenBuf₁ rcvBuf₁ answer ∧
        way₂.Delivers mbstowcs_s body lenBuf₂ rcvBuf₂ answer := by
  intro h
  have hpos : 0 < oneBlock.length := length_oneBlock ▸ bufferSize_pos
  have hdvd : bufferSize ∣ oneBlock.length := by rw [length_oneBlock]
  have hmax : oneBlock.length ≤ maxSize := by
    rw [length_oneBlock]
    decide
  obtain ⟨lenBuf, hlenBuf⟩ := exists_lenBuf oneBlock
  obtain ⟨answer, _, hshort⟩ := h mbstowcsUtf8 oneBlock hpos hdvd hmax Way.exact shortBlock
    lenBuf lenBuf (.replicate _ 0) (.replicate _ 0)
  have hfull := Way.full_of_delivers hdvd hmax hlenBuf hshort 1 (by
    rw [length_oneBlock]
    decide)
  exact absurd hfull (by decide)

end Client

end IndexServer
