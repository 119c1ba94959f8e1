import IndexServer.Client.Framing

/-!
# A string sent and received

What a string becomes on its way through `ws2s`, the padding, the blocks, the trimming of spaces
and `s2ws`. The bytes of a character that takes several of them are none of them spaces, so the
trimming takes spaces of the string and no other byte.
-/

namespace IndexServer

/-! ### Conversions -/

/-- A string of characters comes back with one unit behind it for each byte that a character takes
beyond its first, and the first of these is the terminator. -/
theorem s2ws_ws2s_behind {mbstowcs_s : Mbstowcs} (hdecodes : Decodes mbstowcs_s) {w : WString}
    (hw : Plain w) : ∃ behind, s2ws mbstowcs_s (ws2s w) = w ++ behind ∧
      (w ++ behind).length = (ws2s w).length ∧ ∀ u rest, behind = u :: rest → u = 0 := by
  have hle := length_le_ws2s w
  obtain ⟨rest, hbuffer, hlength⟩ := hdecodes w (List.replicate ((ws2s w).length + 1) 0)
    ((ws2s w).length + 1) hw (by simpa using Nat.lt_succ_of_le hle) (Nat.lt_succ_of_le hle)
  refine ⟨(0 :: rest).dropLast, ?_, ?_, ?_⟩
  · rw [List.length_replicate] at hbuffer
    rw [← List.dropLast_append_of_ne_nil (List.cons_ne_nil 0 rest), ← hbuffer]
    rfl
  · simp only [List.length_append, List.length_cons, List.length_replicate] at hlength
    rw [List.length_append, List.length_dropLast, List.length_cons]
    omega
  · intro u behind hbehind
    cases rest with
    | nil => cases hbehind
    | cons v rest =>
        cases hbehind
        rfl

/-- The last byte of a character is a space only where the character is one. -/
theorem utf8_concat {u : WChar} (hu : u ≠ 32) : ∃ front b, utf8 u = front ++ [b] ∧ b ≠ 32 := by
  have hcontinued : ∀ n, UInt8.ofNat (0x80 + n % 64) ≠ 32 := by
    intro n heq
    have hvalue := congrArg UInt8.toNat heq
    rw [UInt8.toNat_ofNat_of_lt' (show 0x80 + n % 64 < 2 ^ 8 by omega)] at hvalue
    exact absurd hvalue (by rw [show (32 : UInt8).toNat = 32 from rfl]; omega)
  rw [utf8]
  split_ifs with hone htwo
  · refine ⟨[], _, rfl, fun heq => hu (UInt16.toNat_inj.mp ?_)⟩
    have hvalue := congrArg UInt8.toNat heq
    rwa [UInt8.toNat_ofNat_of_lt' (show u.toNat < 2 ^ 8 by omega)] at hvalue
  · exact ⟨[_], _, rfl, hcontinued _⟩
  · exact ⟨[_, _], _, rfl, hcontinued _⟩

theorem rdropWhile_ws2s (w : WString) :
    (ws2s w).rdropWhile (· == 32) = ws2s (w.rdropWhile (· == 32)) := by
  have hconcat : ∀ (w : WString) (u : WChar), ws2s (w ++ [u]) = ws2s w ++ utf8 u := by
    intro w u
    rw [ws2s, List.flatMap_append, List.flatMap_singleton]
    rfl
  induction w using List.reverseRecOn with
  | nil => rfl
  | append_singleton w u ih =>
      rw [hconcat]
      by_cases hu : u = 32
      · subst hu
        rw [List.rdropWhile_concat_pos _ _ _ (by rfl), ← ih]
        exact List.rdropWhile_concat_pos _ _ _ (by rfl)
      · obtain ⟨front, b, hbytes, hb⟩ := utf8_concat hu
        rw [List.rdropWhile_concat_neg _ _ _ (by simpa using hu), hconcat, hbytes,
          ← List.append_assoc, List.rdropWhile_concat_neg _ _ _ (by simpa using hb)]

theorem plain_rdropWhile {w : WString} (hw : Plain w) : Plain (w.rdropWhile (· == 32)) :=
  fun u hu => hw u ((List.rdropWhile_prefix _ _).subset hu)

namespace Client

theorem s2ws_trimmed_iff {mbstowcs_s : Mbstowcs} (hdecodes : Decodes mbstowcs_s) {w : WString}
    (hw : Plain w) : s2ws mbstowcs_s ((ws2s w).rdropWhile (· == 32)) = w ↔
      (∀ u ∈ w, u.toNat < 0x80) ∧ w.getLast? ≠ some 32 := by
  obtain ⟨behind, hreturned, hlength, hfirst⟩ := s2ws_ws2s_behind hdecodes (plain_rdropWhile hw)
  have hkept : w.rdropWhile (· == 32) = w ↔ w.getLast? ≠ some 32 := by
    rw [List.rdropWhile_eq_self_iff]
    obtain rfl | ⟨front, u, rfl⟩ := w.eq_nil_or_concat
    · simp
    · simp
  rw [rdropWhile_ws2s, hreturned, ← hkept, ← length_ws2s_eq_iff]
  constructor
  · intro heq
    have hnone : behind = [] := by
      cases behind with
      | nil => rfl
      | cons u rest =>
          -- the terminator is no unit of the message
          have hu := hfirst u rest rfl
          subst hu
          have hmem : (0 : WChar) ∈ w := by
            rw [← heq]
            exact List.mem_append_right _ List.mem_cons_self
          exact absurd rfl (hw 0 hmem).1
    rw [hnone, List.append_nil] at heq hlength
    rw [heq] at hlength
    exact ⟨hlength.symm, heq⟩
  · rintro ⟨hbytes, hsame⟩
    rw [hsame, hbytes, List.length_append] at hlength
    have hnone : behind = [] := List.length_eq_zero_iff.mp (by omega)
    rw [hsame, hnone, List.append_nil]

/-- A message that is sent without an error and handed out exactly: `receive` leaves the string
without its trailing spaces, followed by a unit for each byte that one of its characters takes
beyond its first, and this is the string exactly if each of its characters takes one byte and the
last of them is no space. -/
theorem receive_send_iff {mbstowcs_s : Mbstowcs} (hdecodes : Decodes mbstowcs_s) {w : WString}
    (hw : Plain w) (hfits : (padded (ws2s w)).length ≤ maxSize)
    (sndBuf : Vector UInt8 bufferSize) :
    ∃ (sent : List (List UInt8)) (received : Outcome),
      send_ (fun _ => false) sndBuf w = .ok (0, sent) ∧
        (∀ (lenBuf : Vector UInt8 8) (rcvBuf : Vector UInt8 bufferSize) (answer : WString),
          receive mbstowcs_s (Way.exact.peer sent.flatten) lenBuf rcvBuf answer = .ok received) ∧
        w.rdropWhile (· == 32) <+: received.answer ∧
        received.answer.length = (ws2s (w.rdropWhile (· == 32))).length ∧
        (received.answer = w ↔ (∀ u ∈ w, u.toNat < 0x80) ∧ w.getLast? ≠ some 32) := by
  obtain ⟨blocks, hsent, hflatten⟩ := sendBytes_eq sndBuf hfits
  have hannounced := longLongOf_longBytes hfits
  have hdvd : bufferSize ∣ (padded (ws2s w)).length := ⟨_, length_padded (ws2s w)⟩
  have hanswer : (outcome mbstowcs_s (padded (ws2s w))).answer =
      s2ws mbstowcs_s ((ws2s w).rdropWhile (· == 32)) := by
    rw [outcome, rdropWhile_padded]
  obtain ⟨behind, hreturned, hlength, -⟩ := s2ws_ws2s_behind hdecodes (plain_rdropWhile hw)
  refine ⟨_, outcome mbstowcs_s (padded (ws2s w)), hsent, fun lenBuf rcvBuf answer => ?_, ?_, ?_,
    ?_⟩
  · rw [List.flatten_cons, hflatten]
    exact receive_full (length_longBytes _) hannounced hdvd (Way.exact_full _)
  · rw [hanswer, rdropWhile_ws2s, hreturned]
    exact List.prefix_append _ _
  · rw [hanswer, rdropWhile_ws2s, hreturned, hlength]
  · rw [hanswer]
    exact s2ws_trimmed_iff hdecodes hw

theorem receive_send_latin : ∃ (sent : List (List UInt8)) (received : Outcome),
    send_ (fun _ => false) (.replicate bufferSize 0) [97] = .ok (0, sent) ∧
      (∀ (lenBuf : Vector UInt8 8) (rcvBuf : Vector UInt8 bufferSize) (answer : WString),
        receive mbstowcsUtf8 (Way.exact.peer sent.flatten) lenBuf rcvBuf answer = .ok received) ∧
      received.answer = [97] := by
  have hfits : (padded (ws2s [97])).length ≤ maxSize := by
    rw [length_padded]
    decide
  obtain ⟨sent, received, hsent, hreceived, _, _, hiff⟩ := receive_send_iff decodes_mbstowcsUtf8
    (plain_singleton (by decide)) hfits (.replicate bufferSize 0)
  exact ⟨sent, received, hsent, hreceived, hiff.mpr ⟨by simp, by decide⟩⟩

end Client

end IndexServer
