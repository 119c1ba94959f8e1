import IndexServer.Base

/-!
# Splitting and narrowing strings

`split` and `ws2s` of `StringFunctions.cpp`. The search for the next delimiter is that of
`std::wstring`.
-/

namespace IndexServer

/-- `s.find(delimiter, pos)`, or nothing for `npos`. -/
def find (s delimiter : WString) (pos : ℕ) : Option ℕ :=
  (List.range (s.length + 1)).find? fun p => decide (pos ≤ p) && delimiter.isPrefixOf (s.drop p)

/-- `s.substr(pos, count)`. -/
def substr (s : WString) (pos count : ℕ) : WString := (s.drop pos).take count

/-- The loop of `split`. Each round moves `pos_start` behind a delimiter, so it ends within as many
rounds as there are positions, or goes round for ever if the delimiter is empty. -/
def splitLoop (s delimiter : WString) : ℕ → ℕ → List WString → Exec (List WString)
  | 0, _, _ => .error .noReturn
  | fuel + 1, posStart, res =>
      match find s delimiter posStart with
      | some posEnd =>
          let token := substr s posStart (posEnd - posStart)
          splitLoop s delimiter fuel (posEnd + delimiter.length) (res ++ [token])
      | none => .ok (res ++ [s.drop posStart])

def split (s delimiter : WString) : Exec (List WString) :=
  splitLoop s delimiter (s.length + 1) 0 []

example : split [97, 32, 98, 32] [32] = .ok [[97], [98], []] := by decide

theorem find_eq_some {s delimiter : WString} {pos p : ℕ} (h : find s delimiter pos = some p) :
    pos ≤ p ∧ p + delimiter.length ≤ s.length := by
  have hp := List.find?_some h
  have hmem := List.mem_of_find?_eq_some h
  rw [Bool.and_eq_true, decide_eq_true_eq, List.isPrefixOf_iff_prefix] at hp
  have hlength := hp.2.length_le
  rw [List.length_drop] at hlength
  rw [List.mem_range] at hmem
  exact ⟨hp.1, by omega⟩

/-- The length of pieces that are each followed by a delimiter. -/
def joinedLength (delimiter : WString) (pieces : List WString) : ℕ :=
  (pieces.map fun piece => piece.length + delimiter.length).sum

theorem splitLoop_length {s delimiter : WString} {fuel pos : ℕ} {res pieces : List WString}
    (hpos : pos ≤ s.length) (h : splitLoop s delimiter fuel pos res = .ok pieces) :
    joinedLength delimiter pieces =
      joinedLength delimiter res + (s.length - pos) + delimiter.length := by
  induction fuel generalizing pos res with
  | zero => cases h
  | succ fuel ih =>
      rw [splitLoop] at h
      split at h
      case h_1 posEnd hfind =>
        obtain ⟨hle, hend⟩ := find_eq_some hfind
        rw [ih hend h]
        simp only [joinedLength, List.map_append, List.sum_append, List.map_cons, List.map_nil,
          List.sum_cons, List.sum_nil, substr, List.length_take, List.length_drop]
        omega
      case h_2 =>
        cases h
        simp only [joinedLength, List.map_append, List.sum_append, List.map_cons, List.map_nil,
          List.sum_cons, List.sum_nil, List.length_drop]
        omega

theorem split_length {s delimiter : WString} {pieces : List WString}
    (h : split s delimiter = .ok pieces) :
    joinedLength delimiter pieces = s.length + delimiter.length := by
  rw [splitLoop_length (Nat.zero_le _) h, joinedLength, List.map_nil, List.sum_nil]
  omega

/-- What `std::codecvt_utf8` makes of one unit. -/
def utf8 (u : WChar) : List UInt8 :=
  let n := u.toNat
  if n < 0x80 then [.ofNat n]
  else if n < 0x800 then [.ofNat (0xC0 + n / 64), .ofNat (0x80 + n % 64)]
  else [.ofNat (0xE0 + n / 4096), .ofNat (0x80 + n / 64 % 64), .ofNat (0x80 + n % 64)]

def ws2s (wstr : WString) : List UInt8 := wstr.flatMap utf8

end IndexServer
