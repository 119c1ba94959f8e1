import IndexServer.Client.Model
import Mathlib.Data.List.DropRight

/-!
# The copies and the loops of a connection

A loop over whole blocks copies each of them inside its buffers. Where the announced length is no
multiple of the block, the last copy leaves the string.
-/

namespace IndexServer

namespace Client

theorem bufferSize_pos : 0 < bufferSize := by decide

section copies

variable {target source : List UInt8} {i j count : ℕ}

theorem memcpy_eq (ht : i + count ≤ target.length) (hs : j + count ≤ source.length) :
    memcpy target i source j count =
      .ok (target.take i ++ (source.drop j).take count ++ target.drop (i + count)) :=
  if_pos ⟨ht, hs⟩

theorem memcpy_fault (h : target.length < i + count) :
    memcpy target i source j count = .error .outOfRange :=
  if_neg fun hin => absurd hin.1 (Nat.not_le.mpr h)

end copies

/-! ### Lengths -/

theorem length_longBytes (x : Int) : (longBytes x).length = 8 := by
  simp [longBytes]

theorem ofDigits_range (b n k : ℕ) :
    Nat.ofDigits b ((List.range k).map fun i => n / b ^ i % b) = n % b ^ k := by
  induction k with
  | zero => simp [Nat.mod_one]
  | succ k ih =>
      rw [List.range_succ, List.map_append, Nat.ofDigits_append, ih, List.length_map,
        List.length_range, List.map_singleton, Nat.ofDigits_singleton, Nat.mod_pow_succ]

theorem longLongOf_longBytes {n : ℕ} (hn : n ≤ maxSize) : longLongOf (longBytes n) = n := by
  rw [maxSize] at hn
  have hmod : ((n : Int) % 2 ^ 64).toNat = n := by omega
  have hbytes : (longBytes n).map UInt8.toNat = (List.range 8).map fun i => n / 256 ^ i % 256 := by
    rw [longBytes, hmod, List.map_map]
    exact List.map_congr_left fun i _ => UInt8.toNat_ofNat'
  rw [longLongOf, hbytes, ofDigits_range, Nat.mod_eq_of_lt (by omega)]
  exact wrap64_eq_self (by omega) (by omega)

theorem longLongOf_le (bytes : List UInt8) : longLongOf bytes ≤ maxSize :=
  Int.le_of_lt_add_one (wrap64_range _).2

/-! ### Trailing characters -/

theorem findLastNotOf_concat (s : List UInt8) (c d : UInt8) :
    findLastNotOf (s ++ [d]) c = if d = c then findLastNotOf s c else s.length := by
  rw [findLastNotOf, List.reverse_append, List.reverse_singleton, List.singleton_append,
    List.findIdx?_cons]
  by_cases hd : d = c
  · rw [if_pos hd, hd, bne_self_eq_false, findLastNotOf]
    cases s.reverse.findIdx? (· != c) with
    | none => rfl
    | some behind =>
        simp only [Bool.false_eq_true, if_false, Option.map_some, List.length_append,
          List.length_singleton]
        omega
  · rw [if_neg hd, if_pos (bne_iff_ne.mpr hd)]
    simp

/-- The position behind the last other character: `npos` is the one in front of all. -/
theorem findLastNotOf_succ {s : List UInt8} (c : UInt8) (h : s.length ≤ maxSize) :
    (findLastNotOf s c + 1) % 2 ^ 64 = (s.rdropWhile (· == c)).length := by
  induction s using List.reverseRecOn with
  | nil =>
      rw [List.rdropWhile_nil]
      exact show (npos + 1) % 2 ^ 64 = 0 by decide
  | append_singleton s d ih =>
      rw [List.length_append, List.length_singleton, maxSize] at h
      rw [findLastNotOf_concat, List.rdropWhile_concat]
      by_cases hd : d = c
      · rw [if_pos hd, if_pos (beq_iff_eq.mpr hd), ih (by rw [maxSize]; omega)]
      · rw [if_neg hd, if_neg (mt beq_iff_eq.mp hd), List.length_append, List.length_singleton,
          Nat.mod_eq_of_lt (by omega)]

theorem take_findLastNotOf {s : List UInt8} (c : UInt8) (h : s.length ≤ maxSize) :
    s.take ((findLastNotOf s c + 1) % 2 ^ 64) = s.rdropWhile (· == c) := by
  rw [findLastNotOf_succ c h]
  exact (List.prefix_iff_eq_take.mp (List.rdropWhile_prefix _ _)).symm

/-! ### The loop of `send_` -/

theorem sendLoop_blocks {fails : ℕ → Bool} (hfails : ∀ n, fails n = false)
    {smessage : List UInt8} {fuel : ℕ} {blocks : List (List UInt8)} {s : Sending}
    (hblocks : ∀ block ∈ blocks, block.length = bufferSize) (hbuf : s.sndBuf.length = bufferSize)
    (hleft : smessage.drop s.i = blocks.flatten) :
    sendLoop fails smessage smessage.length (fuel + 1 + blocks.length) s =
      .ok (0, s.sent ++ blocks) := by
  induction blocks generalizing s with
  | nil =>
      have hend : smessage.length ≤ s.i := List.drop_eq_nil_iff.mp hleft
      rw [List.length_nil, Nat.add_zero, sendLoop, if_neg (by omega), List.append_nil]
      rfl
  | cons block rest ih =>
      obtain ⟨hblock, hrest⟩ := List.forall_mem_cons.mp hblocks
      rw [List.flatten_cons] at hleft
      have hlength := congrArg List.length hleft
      rw [List.length_drop, List.length_append, hblock] at hlength
      have hpos := bufferSize_pos
      have hcopy : memcpy s.sndBuf 0 smessage s.i bufferSize = .ok block := by
        rw [memcpy_eq (by omega) (by omega), hleft, List.take_zero, List.nil_append,
          List.take_left' hblock, List.drop_eq_nil_of_le (by omega), List.append_nil]
      have hnext : smessage.drop (s.i + bufferSize) = rest.flatten := by
        rw [← List.drop_drop, hleft, List.drop_left' hblock]
      rw [List.length_cons, ← Nat.add_assoc, sendLoop, if_pos (by omega), hcopy, Exec.ok_bind,
        hfails, if_neg Bool.false_ne_true, ih hrest hblock hnext, List.append_assoc]
      rfl

/-! ### The loop of `receive` -/

section peer

variable {peer : Peer} {n : ℕ} {buffer : List UInt8}

theorem Peer.length_recv {filled : List UInt8} (hbuffer : buffer.length = requested n)
    (h : peer.recv n buffer = some filled) : filled.length = requested n := by
  obtain ⟨bytes, hbytes, rfl⟩ := Option.map_eq_some_iff.mp h
  have hle := peer.deliver_le n bytes hbytes
  rw [List.length_append, List.length_drop]
  omega

theorem Peer.recv_full {bytes : List UInt8} (h : peer.deliver n = some bytes)
    (hlength : buffer.length = bytes.length) : peer.recv n buffer = some bytes := by
  rw [Peer.recv, h, Option.map_some, List.drop_eq_nil_of_le hlength.le, List.append_nil]

/-- The calls from `n` on fill the array with the blocks, one after another. -/
def Peer.Fills (peer : Peer) : ℕ → List UInt8 → List (List UInt8) → Prop
  | _, _, [] => True
  | n, buffer, block :: rest => peer.recv n buffer = some block ∧ peer.Fills (n + 1) block rest

theorem Peer.exists_fills (hdelivers : ∀ n, (peer.deliver n).isSome) (k : ℕ)
    (hbuffer : buffer.length = bufferSize) :
    ∃ blocks : List (List UInt8), peer.Fills (n + 1) buffer blocks ∧ blocks.length = k ∧
      ∀ block ∈ blocks, block.length = bufferSize := by
  induction k generalizing n buffer with
  | zero => exact ⟨[], trivial, rfl, List.forall_mem_nil _⟩
  | succ k ih =>
      obtain ⟨bytes, hbytes⟩ := Option.isSome_iff_exists.mp (hdelivers (n + 1))
      have hrecv : peer.recv (n + 1) buffer = some (bytes ++ buffer.drop bytes.length) := by
        rw [Peer.recv, hbytes, Option.map_some]
      have hblock := Peer.length_recv hbuffer hrecv
      obtain ⟨blocks, hfills, hlength, hblocks⟩ := ih (n := n + 1) hblock
      exact ⟨_ :: blocks, ⟨hrecv, hfills⟩, by rw [List.length_cons, hlength],
        List.forall_mem_cons.mpr ⟨hblock, hblocks⟩⟩

theorem Peer.fills_of_deliver {blocks : List (List UInt8)}
    (hblocks : ∀ block ∈ blocks, block.length = bufferSize) (hbuffer : buffer.length = bufferSize)
    (hdeliver : ∀ i block, blocks[i]? = some block → peer.deliver (n + i) = some block) :
    peer.Fills n buffer blocks := by
  induction blocks generalizing n buffer with
  | nil => exact trivial
  | cons block rest ih =>
      obtain ⟨hblock, hrest⟩ := List.forall_mem_cons.mp hblocks
      refine ⟨Peer.recv_full (hdeliver 0 block rfl) (hbuffer.trans hblock.symm),
        ih hrest hblock fun i next hi => ?_⟩
      rw [Nat.add_assoc, Nat.add_comm 1 i]
      exact hdeliver (i + 1) next hi

variable {s : Receiving} {fuel : ℕ} {blocks : List (List UInt8)}

def Receiving.after (s : Receiving) (blocks : List (List UInt8)) : Receiving :=
  { s with
    receivedString := s.receivedString.take s.i ++ blocks.flatten ++
      s.receivedString.drop (s.i + bufferSize * blocks.length)
    rcvBuf := blocks.getLastD s.rcvBuf
    i := s.i + bufferSize * blocks.length
    calls := s.calls + blocks.length }

theorem receiveLoop_blocks (hfills : peer.Fills s.calls s.rcvBuf blocks)
    (hblocks : ∀ block ∈ blocks, block.length = bufferSize)
    (hlength : s.dataLength = s.receivedString.length)
    (hroom : s.i + bufferSize * blocks.length ≤ s.receivedString.length) :
    receiveLoop peer (fuel + blocks.length) s = receiveLoop peer fuel (s.after blocks) := by
  induction blocks generalizing s with
  | nil => simp [Receiving.after]
  | cons block rest ih =>
      obtain ⟨hrecv, hfills⟩ := hfills
      obtain ⟨hblock, hrest⟩ := List.forall_mem_cons.mp hblocks
      have hpos := bufferSize_pos
      rw [List.length_cons, Nat.mul_succ] at hroom
      have hcopy : memcpy s.receivedString s.i block 0 bufferSize =
          .ok (s.receivedString.take s.i ++ block ++ s.receivedString.drop (s.i + bufferSize)) := by
        rw [memcpy_eq (by omega) (by omega), List.drop_zero, ← hblock, List.take_length]
      have hfront : (s.receivedString.take s.i ++ block).length = s.i + bufferSize := by
        rw [List.length_append, List.length_take, hblock]
        omega
      have hstring : (s.receivedString.take s.i ++ block ++
          s.receivedString.drop (s.i + bufferSize)).length = s.receivedString.length := by
        rw [List.length_append, hfront, List.length_drop]
        omega
      have hback : (s.receivedString.take s.i ++ block ++
          s.receivedString.drop (s.i + bufferSize)).drop
            (s.i + bufferSize + bufferSize * rest.length) =
          s.receivedString.drop (s.i + bufferSize * (rest.length + 1)) := by
        rw [← List.drop_drop, List.drop_left' hfront, List.drop_drop, Nat.mul_succ,
          Nat.add_assoc, Nat.add_comm bufferSize]
      rw [List.length_cons, ← Nat.add_assoc, receiveLoop, if_pos (by omega), hrecv]
      dsimp only
      rw [hcopy, Exec.ok_bind, ih hfills hrest (by rw [hstring]; exact hlength)
        (by rw [hstring]; dsimp only; omega)]
      congr 1
      simp only [Receiving.after]
      rw [List.take_left' hfront, hback, List.flatten_cons, List.append_assoc _ block,
        List.getLastD_cons, List.length_cons, Nat.mul_succ, Nat.add_assoc, Nat.add_assoc,
        Nat.add_comm bufferSize, Nat.add_comm 1]

theorem resize_eq {n : ℕ} (hn : n ≤ maxSize) : resize [] n = .ok (List.replicate n 0) := by
  rw [resize, if_pos (by omega), List.take_nil, List.length_nil, Nat.sub_zero, Int.toNat_natCast,
    List.nil_append]

/-- The loop behind the header, after it has copied as many blocks as lie inside the string. -/
theorem receiveBlocks_blocks {lenBuf : List UInt8} {dataLength : ℕ}
    (hannounced : longLongOf lenBuf = dataLength) (hfills : peer.Fills 1 buffer blocks)
    (hblocks : ∀ block ∈ blocks, block.length = bufferSize)
    (hlength : blocks.length = dataLength / bufferSize) :
    receiveBlocks peer lenBuf buffer = receiveLoop peer 2
      { dataLength
        receivedString := blocks.flatten ++ List.replicate (dataLength % bufferSize) 0
        rcvBuf := blocks.getLastD buffer
        i := bufferSize * blocks.length
        calls := 1 + blocks.length
        failed := false } := by
  have hmax : dataLength ≤ maxSize := by
    have hle := longLongOf_le lenBuf
    omega
  have hdiv := Nat.mul_div_le dataLength bufferSize
  have hmod := Nat.mod_add_div dataLength bufferSize
  rw [receiveBlocks, hannounced]
  dsimp only
  rw [resize_eq hmax, Exec.ok_bind, Int.toNat_natCast, Nat.add_comm _ 2, ← hlength,
    receiveLoop_blocks hfills hblocks (by simp) (by simp [hlength, hdiv])]
  simp only [Receiving.after, List.take_zero, List.nil_append, Nat.zero_add, List.drop_replicate]
  rw [hlength, show dataLength - bufferSize * (dataLength / bufferSize) =
    dataLength % bufferSize by omega]

theorem receiveBlocks_whole {lenBuf : List UInt8}
    (hannounced : longLongOf lenBuf = (bufferSize * blocks.length : ℕ))
    (hfills : peer.Fills 1 buffer blocks) (hblocks : ∀ block ∈ blocks, block.length = bufferSize) :
    receiveBlocks peer lenBuf buffer = .ok
      { dataLength := (bufferSize * blocks.length : ℕ)
        receivedString := blocks.flatten
        rcvBuf := blocks.getLastD buffer
        i := bufferSize * blocks.length
        calls := 1 + blocks.length
        failed := false } := by
  have hlength : blocks.length = bufferSize * blocks.length / bufferSize :=
    (Nat.mul_div_cancel_left _ bufferSize_pos).symm
  rw [receiveBlocks_blocks hannounced hfills hblocks hlength, receiveLoop, if_neg (by simp),
    Nat.mul_mod_right, List.replicate_zero, List.append_nil]
  rfl

/-- Behind the last whole block the copy leaves the string. -/
theorem receiveBlocks_overrun (hdelivers : ∀ n, (peer.deliver n).isSome) {lenBuf : List UInt8}
    {dataLength : ℕ} (hannounced : longLongOf lenBuf = dataLength)
    (hdvd : ¬ bufferSize ∣ dataLength) (hbuffer : buffer.length = bufferSize) :
    receiveBlocks peer lenBuf buffer = .error .outOfRange := by
  obtain ⟨blocks, hfills, hlength, hblocks⟩ :=
    Peer.exists_fills (n := 0) hdelivers (dataLength / bufferSize) hbuffer
  obtain ⟨bytes, hbytes⟩ := Option.isSome_iff_exists.mp (hdelivers (1 + blocks.length))
  have hlt := Nat.mod_lt dataLength bufferSize_pos
  have hmod := Nat.mod_add_div dataLength bufferSize
  have hpos := Nat.pos_of_ne_zero (mt Nat.dvd_of_mod_eq_zero hdvd)
  have hflatten := Segments.length_flatten hblocks
  rw [receiveBlocks_blocks hannounced hfills hblocks hlength, receiveLoop,
    if_pos (by dsimp only; rw [hlength]; omega), Peer.recv, hbytes, Option.map_some]
  dsimp only
  rw [memcpy_fault]
  · rfl
  · rw [List.length_append, List.length_replicate, hflatten]
    omega

end peer

end Client

end IndexServer
