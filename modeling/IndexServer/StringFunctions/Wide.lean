import IndexServer.StringFunctions

/-!
# Widening strings

`s2ws` takes as many units as its argument has bytes. `mbstowcs_s` writes fewer of them as soon as
one character takes several bytes, and the terminator and what stands behind it stay in the result.
-/

namespace IndexServer

/-- `mbstowcs_s`: the number of units it counts, and what it leaves in the buffer. -/
abbrev Mbstowcs := (wcstr : WString) → (sizeInWords : ℕ) → (mbstr : List UInt8) → (count : ℕ) →
  ℕ × WString

def s2ws (mbstowcs_s : Mbstowcs) (value : List UInt8) : WString :=
  let cSize := value.length + 1
  let wc := List.replicate cSize 0
  let (_, wc) := mbstowcs_s wc cSize value cSize
  wc.dropLast

/-- Units that are characters of their own, none of them the terminator. -/
def Plain (w : WString) : Prop := ∀ u ∈ w, u ≠ 0 ∧ (u.toNat < 0xD800 ∨ 0xDFFF < u.toNat)

/-- Where there is room, the units that the bytes are made of are written with one terminator. -/
def Decodes (mbstowcs_s : Mbstowcs) : Prop :=
  ∀ (w wcstr : WString) (count : ℕ), Plain w → w.length < wcstr.length → w.length < count →
    ∃ rest, (mbstowcs_s wcstr wcstr.length (ws2s w) count).2 = w ++ 0 :: rest ∧
      (w ++ 0 :: rest).length = wcstr.length

/-! ### Lengths -/

theorem length_utf8_pos (u : WChar) : 0 < (utf8 u).length := by
  rw [utf8]
  split_ifs <;> exact Nat.succ_pos _

theorem length_utf8_eq_one (u : WChar) : (utf8 u).length = 1 ↔ u.toNat < 0x80 := by
  rw [utf8]
  split_ifs with hone htwo
  · exact iff_of_true rfl hone
  · exact iff_of_false (by simp) hone
  · exact iff_of_false (by simp) hone

theorem length_ws2s_cons (u : WChar) (w : WString) :
    (ws2s (u :: w)).length = (utf8 u).length + (ws2s w).length := by
  rw [ws2s, List.flatMap_cons, List.length_append]
  rfl

theorem length_le_ws2s (w : WString) : w.length ≤ (ws2s w).length := by
  induction w with
  | nil => exact Nat.le_refl 0
  | cons u w ih =>
      have hpos := length_utf8_pos u
      rw [length_ws2s_cons, List.length_cons]
      omega

/-- Only the units below 128 take a single byte. -/
theorem length_ws2s_eq_iff (w : WString) :
    (ws2s w).length = w.length ↔ ∀ u ∈ w, u.toNat < 0x80 := by
  induction w with
  | nil => exact iff_of_true rfl (List.forall_mem_nil _)
  | cons u w ih =>
      have hpos := length_utf8_pos u
      have hle := length_le_ws2s w
      rw [List.forall_mem_cons, ← ih, ← length_utf8_eq_one, length_ws2s_cons, List.length_cons]
      omega

/-- A string of characters comes back exactly if each of them takes one byte. -/
theorem s2ws_ws2s_iff {mbstowcs_s : Mbstowcs} (hdecodes : Decodes mbstowcs_s) {w : WString}
    (hw : Plain w) : s2ws mbstowcs_s (ws2s w) = w ↔ ∀ u ∈ w, u.toNat < 0x80 := by
  have hle := length_le_ws2s w
  obtain ⟨rest, hbuffer, hlength⟩ := hdecodes w (List.replicate ((ws2s w).length + 1) 0)
    ((ws2s w).length + 1) hw (by simpa using Nat.lt_succ_of_le hle) (Nat.lt_succ_of_le hle)
  have hresult : s2ws mbstowcs_s (ws2s w) = w ++ (0 :: rest).dropLast := by
    rw [List.length_replicate] at hbuffer
    rw [← List.dropLast_append_of_ne_nil (List.cons_ne_nil 0 rest), ← hbuffer]
    rfl
  simp only [List.length_append, List.length_cons, List.length_replicate] at hlength
  rw [hresult, List.append_right_eq_self, ← List.length_eq_zero_iff, List.length_dropLast,
    List.length_cons, ← length_ws2s_eq_iff]
  omega

/-! ### A decoder -/

/-- The units that the bytes in front of the terminator are made of. -/
def decodeUtf8 : List UInt8 → WString
  | [] => []
  | b :: rest =>
      if b = 0 then []
      else if b.toNat < 0x80 then .ofNat b.toNat :: decodeUtf8 rest
      else if b.toNat < 0xE0 then
        match rest with
        | c :: rest => .ofNat (b.toNat % 32 * 64 + c.toNat % 64) :: decodeUtf8 rest
        | [] => []
      else
        match rest with
        | c :: d :: rest =>
            .ofNat (b.toNat % 16 * 4096 + c.toNat % 64 * 64 + d.toNat % 64) :: decodeUtf8 rest
        | _ => []

section decoder

variable {b c d : UInt8} (hb : b ≠ 0) (rest : List UInt8)
include hb

theorem decodeUtf8_one (hone : b.toNat < 0x80) :
    decodeUtf8 (b :: rest) = .ofNat b.toNat :: decodeUtf8 rest := by
  rw [decodeUtf8.eq_def]
  exact (if_neg hb).trans (if_pos hone)

theorem decodeUtf8_two (hone : ¬ b.toNat < 0x80) (htwo : b.toNat < 0xE0) :
    decodeUtf8 (b :: c :: rest) =
      .ofNat (b.toNat % 32 * 64 + c.toNat % 64) :: decodeUtf8 rest := by
  rw [decodeUtf8.eq_def]
  exact (if_neg hb).trans ((if_neg hone).trans (if_pos htwo))

theorem decodeUtf8_three (hone : ¬ b.toNat < 0x80) (htwo : ¬ b.toNat < 0xE0) :
    decodeUtf8 (b :: c :: d :: rest) =
      .ofNat (b.toNat % 16 * 4096 + c.toNat % 64 * 64 + d.toNat % 64) :: decodeUtf8 rest := by
  rw [decodeUtf8.eq_def]
  exact (if_neg hb).trans ((if_neg hone).trans (if_neg htwo))

end decoder

theorem decodeUtf8_utf8 {u : WChar} (hu : u ≠ 0) (rest : List UInt8) :
    decodeUtf8 (utf8 u ++ rest) = u :: decodeUtf8 rest := by
  have hlt : u.toNat < 2 ^ 16 := u.toNat_lt
  have hbyte : ∀ {n : ℕ}, n < 256 → (UInt8.ofNat n).toNat = n := UInt8.toNat_ofNat_of_lt'
  have hne : ∀ {n : ℕ}, n < 256 → 0 < n → UInt8.ofNat n ≠ 0 := by
    intro n hn hpos hzero
    have hvalue := hbyte hn
    rw [hzero] at hvalue
    exact hpos.ne hvalue
  have hunit : ∀ {n : ℕ}, n = u.toNat → UInt16.ofNat n = u := by
    rintro _ rfl
    exact UInt16.ofNat_toNat
  have hpos : 0 < u.toNat := Nat.pos_of_ne_zero fun h => hu (UInt16.toNat_inj.mp h)
  rw [utf8]
  split_ifs with hone htwo
  · rw [List.singleton_append, decodeUtf8_one (hne (by omega) hpos) _ (by rwa [hbyte (by omega)]),
      hbyte (by omega), hunit rfl]
  · rw [List.cons_append, List.singleton_append,
      decodeUtf8_two (hne (by omega) (by omega)) _ (by rw [hbyte] <;> omega)
        (by rw [hbyte] <;> omega),
      hbyte (by omega), hbyte (by omega), hunit (by omega)]
  · rw [List.cons_append, List.cons_append, List.singleton_append,
      decodeUtf8_three (hne (by omega) (by omega)) _ (by rw [hbyte] <;> omega)
        (by rw [hbyte] <;> omega),
      hbyte (by omega), hbyte (by omega), hbyte (by omega), hunit (by omega)]

theorem decodeUtf8_ws2s {w : WString} (hw : Plain w) : decodeUtf8 (ws2s w) = w := by
  induction w with
  | nil => rfl
  | cons u w ih =>
      obtain ⟨hu, hrest⟩ := List.forall_mem_cons.mp hw
      rw [ws2s, List.flatMap_cons, decodeUtf8_utf8 hu.1]
      exact congrArg (List.cons u) (ih hrest)

/-- Conversion in a UTF-8 locale, into a buffer that is long enough. -/
def mbstowcsUtf8 : Mbstowcs := fun wcstr _ mbstr _ =>
  let units := decodeUtf8 mbstr
  (units.length + 1, units ++ 0 :: wcstr.drop (units.length + 1))

theorem decodes_mbstowcsUtf8 : Decodes mbstowcsUtf8 := by
  intro w wcstr count hw hlength _
  refine ⟨wcstr.drop (w.length + 1), ?_, ?_⟩
  · rw [mbstowcsUtf8, decodeUtf8_ws2s hw]
  · rw [List.length_append, List.length_cons, List.length_drop]
    omega

theorem plain_singleton {u : WChar} (hu : u ≠ 0 ∧ (u.toNat < 0xD800 ∨ 0xDFFF < u.toNat)) :
    Plain [u] := List.forall_mem_singleton.mpr hu

theorem s2ws_ws2s_latin : s2ws mbstowcsUtf8 (ws2s [97]) = [97] ↔
    ∀ u ∈ ([97] : WString), u.toNat < 0x80 :=
  s2ws_ws2s_iff decodes_mbstowcsUtf8 (plain_singleton (by decide))

/-- The letter "і" comes back with a terminator. -/
theorem s2ws_ws2s_cyrillic : s2ws mbstowcsUtf8 (ws2s [0x456]) = [0x456, 0] ∧
    ¬ ∀ mbstowcs_s : Mbstowcs, Decodes mbstowcs_s → ∀ w : WString, Plain w →
      s2ws mbstowcs_s (ws2s w) = w := by
  refine ⟨by decide, fun h => ?_⟩
  have hkept := h mbstowcsUtf8 decodes_mbstowcsUtf8 [0x456] (plain_singleton (by decide))
  exact absurd hkept (by decide)

end IndexServer
