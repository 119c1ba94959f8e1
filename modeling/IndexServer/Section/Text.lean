import IndexServer.StringFunctions
import Mathlib.Data.List.TakeWhile

/-!
# Numbers read from text

`stoll` reads back what `to_wstring` writes. Out of the units of another number, read as if they
were text, it makes a far smaller number.
-/

namespace IndexServer

theorem not_isSpace_of_isDigit {c : ℕ} (hc : isDigit c) : ¬ isSpace c := by
  rw [isDigit_iff] at hc
  simp only [isSpace, Bool.or_eq_true, Bool.and_eq_true, beq_iff_eq, decide_eq_true_eq]
  omega

theorem stoll_of_digits {codes : List ℕ} (hne : codes ≠ []) (hdigits : ∀ c ∈ codes, isDigit c) :
    stoll codes = if decimal codes < 2 ^ 63 then .ok (decimal codes : Int) else .error .thrown := by
  have hall : codes.takeWhile isDigit = codes := List.takeWhile_eq_self_iff.mpr hdigits
  have hread : stollDigits 1 codes =
      if decimal codes < 2 ^ 63 then .ok (decimal codes : Int) else .error .thrown := by
    rw [stollDigits, hall, if_neg hne, Int.one_mul]
    exact if_congr (by omega) rfl rfl
  obtain ⟨c, rest, rfl⟩ := List.exists_cons_of_ne_nil hne
  have hc := hdigits c List.mem_cons_self
  have hspace : (c :: rest).dropWhile isSpace = c :: rest :=
    List.dropWhile_cons_of_neg (not_isSpace_of_isDigit hc)
  rw [isDigit_iff] at hc
  rw [stoll, hspace]
  split
  case h_1 hcons =>
    cases hcons
    omega
  case h_2 hcons =>
    cases hcons
    omega
  case h_3 => exact hread

theorem codes_ne_nil {units : WString} (hne : units ≠ []) : units.map UInt16.toNat ≠ [] :=
  mt List.map_eq_nil_iff.mp hne

theorem stoll_toWString {n : ℕ} (hn : n < 2 ^ 63) :
    stoll ((toWString n).map UInt16.toNat) = .ok (n : Int) := by
  rw [stoll_of_digits (codes_ne_nil (toWString_ne_nil n)) fun c => isDigit_of_mem_codes,
    decimal_codes, if_pos hn]

/-! ### A number spelled by the units of another -/

/-- The number whose units, the low one first, these are. -/
def ofUnits : WString → ℕ
  | [] => 0
  | u :: rest => u.toNat + 2 ^ 16 * ofUnits rest

/-- The codes of the bytes that `ws2s` makes of a string. -/
def narrowCodes (units : WString) : List ℕ := (ws2s units).map UInt8.toNat

theorem utf8_cases (u : WChar) :
    (u.toNat < 128 ∧ (utf8 u).map UInt8.toNat = [u.toNat]) ∨
      ∃ b rest, 128 ≤ b ∧ (utf8 u).map UInt8.toNat = b :: rest := by
  have hlt : u.toNat < 2 ^ 16 := u.toNat_lt
  have hlead : ∀ {n : ℕ} {rest : List UInt8}, 128 ≤ n → n < 2 ^ 8 → utf8 u = .ofNat n :: rest →
      ∃ b rest, 128 ≤ b ∧ (utf8 u).map UInt8.toNat = b :: rest := by
    intro n rest hlow hhigh hbytes
    refine ⟨n, rest.map UInt8.toNat, hlow, ?_⟩
    rw [hbytes, List.map_cons, UInt8.toNat_ofNat', Nat.mod_eq_of_lt hhigh]
  by_cases hone : u.toNat < 0x80
  · left
    refine ⟨hone, ?_⟩
    rw [utf8, if_pos hone, List.map_singleton, UInt8.toNat_ofNat', Nat.mod_eq_of_lt (by omega)]
  · right
    by_cases htwo : u.toNat < 0x800
    · have hbytes : utf8 u = .ofNat (0xC0 + u.toNat / 64) :: [.ofNat (0x80 + u.toNat % 64)] :=
        (if_neg hone).trans (if_pos htwo)
      exact hlead (by omega) (by omega) hbytes
    · have hbytes : utf8 u = .ofNat (0xE0 + u.toNat / 4096) ::
          [.ofNat (0x80 + u.toNat / 64 % 64), .ofNat (0x80 + u.toNat % 64)] :=
        (if_neg hone).trans (if_neg htwo)
      exact hlead (by omega) (by omega) hbytes

theorem narrowCodes_cons (u : WChar) (units : WString) :
    narrowCodes (u :: units) = (utf8 u).map UInt8.toNat ++ narrowCodes units := by
  rw [narrowCodes, ws2s, List.flatMap_cons, List.map_append]
  rfl

/-- A first byte below 128 is the first unit. -/
theorem narrowCodes_eq_cons {units : WString} {c : ℕ} {codes : List ℕ} (hc : c < 128)
    (h : narrowCodes units = c :: codes) :
    ∃ u rest, units = u :: rest ∧ u.toNat = c ∧ narrowCodes rest = codes := by
  cases units with
  | nil => cases h
  | cons u rest =>
      rw [narrowCodes_cons] at h
      rcases utf8_cases u with ⟨_, hunit⟩ | ⟨b, more, hb, hunit⟩
      · rw [hunit, List.singleton_append, List.cons.injEq] at h
        exact ⟨u, rest, rfl, h⟩
      · rw [hunit, List.cons_append, List.cons.injEq] at h
        omega

theorem le_ofUnits_of_digits {digits : List ℕ} (hdigits : ∀ c ∈ digits, isDigit c)
    {units : WString} {rest : List ℕ} (h : narrowCodes units = digits ++ rest)
    (hne : digits ≠ []) : 48 * (2 ^ 16) ^ (digits.length - 1) ≤ ofUnits units := by
  induction digits generalizing units with
  | nil => exact absurd rfl hne
  | cons c more ih =>
      have hc := isDigit_iff.mp (hdigits c List.mem_cons_self)
      obtain ⟨u, units, rfl, rfl, hrest⟩ := narrowCodes_eq_cons (by omega) h
      rw [ofUnits]
      cases more with
      | nil =>
          simp only [List.length_cons, List.length_nil, Nat.zero_add, Nat.sub_self, pow_zero]
          omega
      | cons d more =>
          have hle := ih (fun x hx => hdigits x (List.mem_cons_of_mem _ hx)) hrest
            (List.cons_ne_nil _ _)
          simp only [List.length_cons, Nat.add_sub_cancel] at hle ⊢
          rw [pow_succ]
          omega

theorem foldl_decimal_lt {digits : List ℕ} (hdigits : ∀ c ∈ digits, isDigit c) (n : ℕ) :
    digits.foldl (fun n c => 10 * n + (c - 48)) n < (n + 1) * 10 ^ digits.length := by
  induction digits generalizing n with
  | nil => simp
  | cons c rest ih =>
      have hc := isDigit_iff.mp (hdigits c List.mem_cons_self)
      have hrest := ih (fun x hx => hdigits x (List.mem_cons_of_mem _ hx)) (10 * n + (c - 48))
      rw [List.foldl_cons, List.length_cons, pow_succ']
      calc _ < (10 * n + (c - 48) + 1) * 10 ^ rest.length := hrest
        _ ≤ (10 * (n + 1)) * 10 ^ rest.length := Nat.mul_le_mul_right _ (by omega)
        _ = (n + 1) * (10 * 10 ^ rest.length) := by rw [Nat.mul_comm 10 (n + 1), Nat.mul_assoc]

theorem decimal_lt {digits : List ℕ} (hdigits : ∀ c ∈ digits, isDigit c) :
    decimal digits < 10 ^ digits.length := by
  have h := foldl_decimal_lt hdigits 0
  rwa [Nat.zero_add, Nat.one_mul] at h

theorem four_mul_ten_pow_le (n : ℕ) : 4 * 10 ^ (n + 1) ≤ 48 * (2 ^ 16) ^ n := by
  induction n with
  | zero => decide
  | succ n ih =>
      rw [pow_succ 10, pow_succ (2 ^ 16)]
      omega

/-- The digits spell a number below the number that the units make. -/
theorem stollDigits_lt {units : WString} {codes : List ℕ} (h : narrowCodes units = codes)
    {sign x : Int} (hsign : sign.natAbs = 1) (hx : stollDigits sign codes = .ok x) :
    4 * (x.natAbs + 1) ≤ ofUnits units := by
  subst h
  have hdigits : ∀ c ∈ (narrowCodes units).takeWhile isDigit, isDigit c := fun c =>
    List.mem_takeWhile_imp
  have hsplit := (List.takeWhile_append_dropWhile (p := isDigit) (l := narrowCodes units)).symm
  rw [stollDigits] at hx
  split at hx
  · cases hx
  · have hne : (narrowCodes units).takeWhile isDigit ≠ [] := by assumption
    split at hx
    · cases hx
      have hlow := le_ofUnits_of_digits hdigits hsplit hne
      have hhigh := decimal_lt hdigits
      generalize (narrowCodes units).takeWhile isDigit = digits at hne hlow hhigh ⊢
      obtain ⟨n, hn⟩ := Nat.exists_eq_succ_of_ne_zero (List.length_pos_iff.mpr hne).ne'
      have hpow := four_mul_ten_pow_le n
      rw [Int.natAbs_mul, hsign, Nat.one_mul, Int.natAbs_natCast]
      rw [hn, Nat.succ_eq_add_one] at hlow hhigh
      rw [Nat.add_sub_cancel] at hlow
      omega
    · cases hx

theorem ofUnits_le_cons (u : WChar) (units : WString) : ofUnits units ≤ ofUnits (u :: units) := by
  rw [ofUnits]
  omega

theorem exists_dropWhile_narrowCodes (units : WString) :
    ∃ units', (narrowCodes units).dropWhile isSpace = narrowCodes units' ∧
      ofUnits units' ≤ ofUnits units := by
  induction units with
  | nil => exact ⟨[], rfl, le_rfl⟩
  | cons u rest ih =>
      have hcons := narrowCodes_cons u rest
      rcases utf8_cases u with ⟨_, hunit⟩ | ⟨b, more, hb, hunit⟩
      · rw [hunit, List.singleton_append] at hcons
        by_cases hspace : isSpace u.toNat
        · obtain ⟨units', hdrop, hle⟩ := ih
          refine ⟨units', ?_, hle.trans (ofUnits_le_cons u rest)⟩
          rw [hcons, List.dropWhile_cons_of_pos hspace, hdrop]
        · refine ⟨u :: rest, ?_, le_rfl⟩
          rw [hcons, List.dropWhile_cons_of_neg hspace]
      · have hspace : ¬ isSpace b := by
          simp only [isSpace, Bool.or_eq_true, Bool.and_eq_true, beq_iff_eq, decide_eq_true_eq]
          omega
        refine ⟨u :: rest, ?_, le_rfl⟩
        rw [hcons, hunit, List.cons_append, List.dropWhile_cons_of_neg hspace]

/-- The number that the units of a number spell is less than a quarter of it. -/
theorem stoll_narrowCodes_lt {units : WString} {x : Int} (hx : stoll (narrowCodes units) = .ok x) :
    4 * (x.natAbs + 1) ≤ ofUnits units := by
  obtain ⟨units', hdrop, hle⟩ := exists_dropWhile_narrowCodes units
  have hsigned : ∀ {c codes}, c < 128 → narrowCodes units' = c :: codes → ∀ {sign : Int},
      sign.natAbs = 1 → stollDigits sign codes = .ok x → 4 * (x.natAbs + 1) ≤ ofUnits units' := by
    intro c codes hc hcons sign hsign hread
    obtain ⟨u, rest, rfl, _, hrest⟩ := narrowCodes_eq_cons hc hcons
    exact (stollDigits_lt hrest hsign hread).trans (ofUnits_le_cons u rest)
  refine le_trans ?_ hle
  rw [stoll, hdrop] at hx
  split at hx
  case h_1 hcons => exact hsigned (by decide) hcons (by decide) hx
  case h_2 hcons => exact hsigned (by decide) hcons (by decide) hx
  case h_3 => exact stollDigits_lt rfl (by decide) hx

end IndexServer
