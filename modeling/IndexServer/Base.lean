import Mathlib.Data.List.Basic
import Mathlib.Algebra.Order.Ring.Int

/-!
# Machine integers, wide strings and vectors

The values of the server as its source has them on the target: wide strings are lists of 16-bit
units, `long long` is an integer reduced to 64 bits wherever an operation can leave that range, and
a vector is a list read and written at a `long long` position. A call that reads outside a vector,
never returns, throws or divides by zero has no result; `Exec` says which of these it was.
-/

namespace IndexServer

/-- One unit of a `std::wstring`. -/
abbrev WChar := UInt16

abbrev WString := List WChar

inductive Fault where
  | outOfRange
  | noReturn
  | thrown
  | divisionByZero
  deriving DecidableEq, Repr

abbrev Exec := Except Fault

@[simp] theorem Exec.ok_bind {α β : Type} (a : α) (f : α → Exec β) :
    (Except.ok a >>= f : Exec β) = f a := rfl

theorem Exec.bind_eq_ok {α β : Type} {x : Exec α} {f : α → Exec β} {b : β} :
    x >>= f = .ok b ↔ ∃ a, x = .ok a ∧ f a = .ok b := by
  constructor
  · intro h
    cases x with
    | error fault => cases h
    | ok a => exact ⟨a, rfl, h⟩
  · rintro ⟨a, rfl, hb⟩
    exact hb

theorem Exec.map_bind {α β γ : Type} (x : Exec α) (f : α → Exec β) (g : β → γ) :
    (x >>= f).map g = x >>= fun a => (f a).map g := by
  cases x with
  | error => rfl
  | ok => rfl

theorem Exec.toOption_eq_some {α : Type} {x : Exec α} {a : α} :
    x.toOption = some a ↔ x = .ok a := by
  cases x with
  | error fault => exact iff_of_false (by simp [Except.toOption]) (by simp)
  | ok b => exact ⟨fun h => congrArg _ (Option.some.inj h), fun h => congrArg _ (Except.ok.inj h)⟩

/-- The value that 64-bit two's-complement arithmetic leaves of an integer. -/
def wrap64 (x : Int) : Int := x.bmod (2 ^ 64)

/-- `abs` on `long long`: it maps the least value to itself. -/
def abs64 (x : Int) : Int := wrap64 x.natAbs

theorem wrap64_eq_self {x : Int} (hlow : -(2 ^ 63) ≤ x) (hhigh : x < 2 ^ 63) : wrap64 x = x := by
  rw [wrap64, Int.bmod_eq_of_le] <;> omega

theorem wrap64_range (x : Int) : -(2 ^ 63) ≤ wrap64 x ∧ wrap64 x < 2 ^ 63 :=
  ⟨Int.le_bmod (by decide), Int.bmod_lt (by decide)⟩

theorem exists_wrap64 (x : Int) : ∃ c, wrap64 x = x + 2 ^ 64 * c := by
  refine ⟨-x.bdiv (2 ^ 64), ?_⟩
  have hdiv := Int.bmod_add_bdiv x (2 ^ 64)
  rw [wrap64]
  omega

/-! ### Vectors -/

variable {α : Type}

/-- `v[i]`. -/
def vectorGet (v : List α) : Int → Exec α
  | .ofNat i =>
      match v[i]? with
      | some a => .ok a
      | none => .error .outOfRange
  | .negSucc _ => .error .outOfRange

/-- `v[i] = a`. -/
def vectorSet (v : List α) (i : Int) (a : α) : Exec (List α) := do
  let _ ← vectorGet v i
  return v.set i.toNat a

theorem vectorGet_natCast {v : List α} {i : Nat} {a : α} (h : v[i]? = some a) :
    vectorGet v i = .ok a := by
  change (match v[i]? with | some a => Except.ok a | none => Except.error Fault.outOfRange) = _
  rw [h]

theorem vectorGet_natCast_eq_ok {v : List α} {i : Nat} {a : α} :
    vectorGet v i = .ok a ↔ v[i]? = some a := by
  constructor
  · intro h
    change (match v[i]? with | some a => Except.ok a | none => Except.error Fault.outOfRange) = _
      at h
    cases hv : v[i]? with
    | none => simp [hv] at h
    | some b => simpa [hv] using h
  · exact vectorGet_natCast

theorem vectorGet_eq_ok {v : List α} {i : Int} {a : α} :
    vectorGet v i = .ok a ↔ ∃ n : ℕ, i = n ∧ v[n]? = some a := by
  cases i with
  | ofNat n =>
      constructor
      · intro h
        exact ⟨n, rfl, vectorGet_natCast_eq_ok.mp h⟩
      · rintro ⟨m, hm, ha⟩
        rw [hm]
        exact vectorGet_natCast ha
  | negSucc n =>
      constructor
      · intro h
        cases h
      · rintro ⟨m, hm, _⟩
        cases hm

theorem vectorSet_natCast {v : List α} {i : Nat} {a : α} (h : i < v.length) :
    vectorSet v i a = .ok (v.set i a) := by
  rw [vectorSet, vectorGet_natCast (List.getElem?_eq_getElem h)]
  rfl

theorem getElem?_set_cases {v : List α} {i m : ℕ} {a c : α} (h : (v.set i a)[m]? = some c) :
    (m = i ∧ c = a) ∨ (m ≠ i ∧ v[m]? = some c) := by
  by_cases hm : m = i
  · subst hm
    have hlt : m < (v.set m a).length := (List.getElem?_eq_some_iff.mp h).1
    rw [List.length_set] at hlt
    rw [List.getElem?_set_self hlt] at h
    exact .inl ⟨rfl, (Option.some.inj h).symm⟩
  · rw [List.getElem?_set_ne (Ne.symm hm)] at h
    exact .inr ⟨hm, h⟩

theorem sum_map_set (f : α → ℕ) {v : List α} {i : ℕ} {a b : α} (h : v[i]? = some a) :
    ((v.set i b).map f).sum + f a = (v.map f).sum + f b := by
  induction v generalizing i with
  | nil => simp at h
  | cons c v ih =>
      cases i with
      | zero =>
          rw [List.getElem?_cons_zero, Option.some.injEq] at h
          simp only [List.set_cons_zero, List.map_cons, List.sum_cons, h]
          omega
      | succ i =>
          have hrest := ih (by simpa using h)
          simp only [List.set_cons_succ, List.map_cons, List.sum_cons]
          omega

/-- `extendVector` of `VectorFunctions.h`. -/
def extendVector (extended appended : List α) : List α := extended ++ appended

/-- `getVectorByteSize` of `VectorFunctions.cpp`: it counts units, and no delimiters. -/
def getVectorByteSize (vector : List WString) : Nat := (vector.map List.length).sum

theorem getVectorByteSize_append (v w : List WString) :
    getVectorByteSize (v ++ w) = getVectorByteSize v + getVectorByteSize w := by
  rw [getVectorByteSize, List.map_append, List.sum_append]
  rfl

/-! ### Numbers as text -/

/-- `std::to_wstring` on a `long long`. -/
def toWString (n : Int) : WString :=
  let digits := (Nat.toDigits 10 n.natAbs).map fun c => UInt16.ofNat c.toNat
  if n < 0 then 45 :: digits else digits

/-- `isspace`, on the code of a character. -/
def isSpace (c : ℕ) : Bool := c == 32 || (9 ≤ c && c ≤ 13)

def isDigit (c : ℕ) : Bool := 48 ≤ c && c ≤ 57

/-- The number that digits spell. -/
def decimal (digits : List ℕ) : ℕ := digits.foldl (fun n c => 10 * n + (c - 48)) 0

/-- `std::stoll` behind the sign. It throws if no digit follows or the number has no `long long`. -/
def stollDigits (sign : Int) (codes : List ℕ) : Exec Int :=
  let digits := codes.takeWhile isDigit
  let value := sign * decimal digits
  if digits = [] then .error .thrown
  else if -(2 ^ 63) ≤ value ∧ value < 2 ^ 63 then .ok value
  else .error .thrown

/-- `std::stoll` on the codes of a string: space, a sign, and digits up to anything else. -/
def stoll (codes : List ℕ) : Exec Int :=
  match codes.dropWhile isSpace with
  | 45 :: rest => stollDigits (-1) rest
  | 43 :: rest => stollDigits 1 rest
  | rest => stollDigits 1 rest

theorem isDigit_code {c : Char} (hc : c.isDigit) : isDigit c.toNat := by
  simp only [Char.isDigit, Bool.and_eq_true, decide_eq_true_eq] at hc
  rw [isDigit, Bool.and_eq_true, decide_eq_true_eq, decide_eq_true_eq]
  exact hc

theorem isDigit_iff {c : ℕ} : isDigit c ↔ 48 ≤ c ∧ c ≤ 57 := by
  rw [isDigit, Bool.and_eq_true, decide_eq_true_eq, decide_eq_true_eq]

/-- The codes of the units that `to_wstring` writes are those of decimal digits. -/
theorem codes_toWString (n : ℕ) :
    (toWString n).map UInt16.toNat = (Nat.toDigits 10 n).map Char.toNat := by
  rw [toWString, if_neg (by omega), List.map_map, Int.natAbs_natCast]
  apply List.map_congr_left
  intro c hc
  have hdigit := isDigit_code (Nat.isDigit_of_mem_toDigits (by decide) (by decide) hc)
  rw [isDigit_iff] at hdigit
  change (UInt16.ofNat c.toNat).toNat = c.toNat
  rw [UInt16.toNat_ofNat', Nat.mod_eq_of_lt (by omega)]

theorem isDigit_of_mem_codes {n c : ℕ} (hc : c ∈ (toWString n).map UInt16.toNat) : isDigit c := by
  rw [codes_toWString] at hc
  obtain ⟨d, hd, rfl⟩ := List.mem_map.mp hc
  exact isDigit_code (Nat.isDigit_of_mem_toDigits (by decide) (by decide) hd)

theorem toWString_ne_nil (n : ℕ) : toWString n ≠ [] := by
  intro hnil
  have hcodes := codes_toWString n
  rw [hnil] at hcodes
  exact Nat.toDigits_ne_nil (List.map_eq_nil_iff.mp hcodes.symm)

theorem decimal_codes (n : ℕ) : decimal ((toWString n).map UInt16.toNat) = n := by
  rw [codes_toWString, decimal, List.foldl_map]
  exact Nat.ofDigitChars_ten_toDigits

theorem toWString_injective : Function.Injective fun n : ℕ => toWString n := by
  intro m n h
  rw [← decimal_codes m, ← decimal_codes n]
  exact congrArg (fun units => decimal (units.map UInt16.toNat)) h

theorem toWString_eq_iff {n : ℕ} {x : Int} : toWString n = toWString x ↔ (n : Int) = x := by
  constructor
  · intro h
    by_cases hx : x < 0
    · have hsign : (45 : ℕ) ∈ (toWString n).map UInt16.toNat := by
        rw [h, toWString, if_pos hx]
        exact List.mem_cons_self
      exact absurd (isDigit_of_mem_codes hsign) (by decide)
    · obtain ⟨m, rfl⟩ := Int.eq_ofNat_of_zero_le (Int.not_lt.mp hx)
      exact congrArg Nat.cast (toWString_injective h)
  · rintro rfl
    rfl

end IndexServer
