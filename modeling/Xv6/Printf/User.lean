import Xv6.Printf

namespace Xv6.Printf.User

open Lib

-- "0123456789ABCDEF"
def digits : Digits where
  text i := ([48, 49, 50, 51, 52, 53, 54, 55, 56, 57, 65, 66, 67, 68, 69, 70] : List UInt8).getD i 0
  inj := by decide
  minus := by decide

theorem digits_ascii : ∀ i < 16, (digits.text i).toNat =
    if i < 10 then '0'.toNat + i else 'A'.toNat + (i - 10) := by decide

-- printint(int fd, int xx, int base, int sgn)
def printint (xx : BitVec 32) (base : Nat) (sgn : Bool) : Option (List UInt8) :=
  Printf.printint digits xx base sgn

-- printint(fd, va_arg(ap, int), ..) or printint(fd, va_arg(ap, uint64), ..), where the
-- argument becomes an int.
def printarg : Len → BitVec 64 → Nat → Bool → Option (List UInt8)
  | .int, v => printint (v.setWidth 32)
  | .long, v => printint (v.setWidth 32)
  | .longlong, v => printint (v.setWidth 32)

-- The loop of vprintf() from fmt[i] on, where n arguments have been taken. state tells
-- whether the character before was a %.
def vprintfLoop (fmt : List UInt8) (ap : Nat → BitVec 64) (mem : BitVec 64 → List UInt8) :
    Nat → Bool → Nat → Nat → Output
  | 0, _, _, _ => []
  | fuel + 1, state, i, n =>
    let c0 := fmt.getD i 0
    if c0 = 0 then []
    else if state = false then
      if c0 = 37 then vprintfLoop fmt ap mem fuel true (i + 1) n
      else .cons (.char c0) (some [c0]) (vprintfLoop fmt ap mem fuel false (i + 1) n)
    else
      let c1 := if c0 ≠ 0 then fmt.getD (i + 1) 0 else 0
      let c2 := if c1 ≠ 0 then fmt.getD (i + 2) 0 else 0
      let k := conv c0 c1 c2
      .cons (.conv k (ap n)) (convert digits printarg mem (ap n) k)
        (vprintfLoop fmt ap mem fuel false (i + k.skip + 1) (n + k.args))

def vprintf (fmt : List UInt8) (ap : Nat → BitVec 64) (mem : BitVec 64 → List UInt8) : Output :=
  vprintfLoop fmt ap mem (fmt.length + 1) false 0 0

variable {fmt : List UInt8} {ap : Nat → BitVec 64} {mem : BitVec 64 → List UInt8}

-- The loop goes over the directives of what is left of the string. In state '%' the
-- character before belongs to it.
theorem vprintfLoop_eq (fuel : Nat) (state : Bool) (i n : Nat) (hf : fmt.length < i + fuel) :
    vprintfLoop fmt ap mem fuel state i n =
      outputs (out digits printarg mem) (directives ap ((if state then [37] else []) ++ fmt.drop i) n) := by
  induction fuel generalizing state i n with
  | zero =>
    rw [List.drop_eq_nil_of_le (by omega)]
    cases state with
    | false => rw [if_neg (by decide), List.append_nil, directives_nul rfl]; rfl
    | true => rw [if_pos rfl, List.append_nil, directives_percent rfl]; rfl
  | succ fuel ih =>
    generalize hs : fmt.drop i = s
    have hget := getD_of_drop hs
    have hdrop := drop_of_drop hs
    have hc0 : fmt.getD i 0 = s.getD 0 0 := hget 0
    rw [vprintfLoop]
    by_cases h0 : s.getD 0 0 = 0
    · simp only [hc0, h0, if_true]
      cases state with
      | false => exact congrArg (outputs (out digits printarg mem)) (directives_nul h0).symm
      | true => exact congrArg (outputs (out digits printarg mem)) (directives_percent h0).symm
    obtain ⟨c, rest, rfl⟩ : ∃ c rest, s = c :: rest := by
      apply List.exists_cons_of_ne_nil
      rintro rfl
      exact h0 rfl
    have h0 : c ≠ 0 := h0
    have hc0 : fmt.getD i 0 = c := hc0
    cases state with
    | false =>
      by_cases h37 : c = 37
      · simp only [hc0, h37, if_true, ih true (i + 1) n (by omega), hdrop]
        rw [if_neg (by decide)]
        rfl
      · simp only [hc0, h0, if_false, h37, if_true, ih false (i + 1) n (by omega), hdrop]
        rw [if_neg (by decide), List.nil_append, List.nil_append, directives_char h0 h37]
        rfl
    | true =>
      have hc1 : fmt.getD (i + 1) 0 = rest.getD 0 0 := hget 1
      have hc2 : fmt.getD (i + 2) 0 = rest.getD 1 0 := hget 2
      have hnext : ∀ m, fmt.drop (i + m + 1) = rest.drop m := by
        intro m
        rw [Nat.add_assoc, hdrop]
        rfl
      simp only [hc0, hc1, hc2, h0, ne_eq, not_false_eq_true, if_true, if_false, conv_of_end]
      rw [if_neg (by decide), ih _ _ _ (by omega), hnext, if_neg (by decide), List.nil_append,
        List.singleton_append, directives_conv h0 rfl]
      rfl

-- The numbers that printint() gets right: those that are the same as an int, or as an
-- unsigned one if there is no sign.
def Fits : Len → Kind → BitVec 64 → Prop
  | .int, _, _ => True
  | _, .d, v => -2 ^ 31 ≤ v.toInt ∧ v.toInt < 2 ^ 31
  | _, _, v => v.toNat < 2 ^ 32

theorem toInt_setWidth_eq_iff (v : BitVec 64) :
    (v.setWidth 32).toInt = v.toInt ↔ -2 ^ 31 ≤ v.toInt ∧ v.toInt < 2 ^ 31 := by
  rw [BitVec.toInt_eq_toNat_cond, BitVec.toInt_eq_toNat_cond, BitVec.toNat_setWidth]
  split <;> split <;> omega

theorem printarg_iff (len : Len) (kind : Kind) (v : BitVec 64) :
    printarg len v kind.base kind.sign = some (text digits kind.base (value len kind v)) ↔
      Fits len kind v := by
  have h32 : ∀ {z : Int}, printint (v.setWidth 32) kind.base kind.sign = some (text digits kind.base z) ↔
      (if kind.sign then (v.setWidth 32).toInt else ((v.setWidth 32).toNat : Int)) = z ∧
        -(kind.base ^ 15 : Nat) < z ∧ z < (kind.base ^ 16 : Nat) := by
    intro z
    rw [printint, printint_eq_text_iff kind.one_lt_base kind.base_le _ kind.sign rfl,
      text_length_le_iff kind.one_lt_base]
  have hi := toInt_setWidth_eq_iff v
  have hn : (v.setWidth 32).toNat = v.toNat % 2 ^ 32 := BitVec.toNat_setWidth ..
  have hlt := (v.setWidth 32).toInt_lt
  have hle := (v.setWidth 32).le_toInt
  cases len with
  | int =>
    rw [printarg, h32]
    cases kind <;>
      simp only [value, Kind.sign, Kind.base, Fits, if_true, Bool.false_eq_true, if_false, iff_true,
        true_and] <;>
      omega
  | long =>
    rw [printarg, h32]
    cases kind <;>
      simp only [value, Kind.sign, Kind.base, Fits, if_true, Bool.false_eq_true, if_false] <;>
      omega
  | longlong =>
    rw [printarg, h32]
    cases kind <;>
      simp only [value, Kind.sign, Kind.base, Fits, if_true, Bool.false_eq_true, if_false] <;>
      omega

-- Each directive of the format string is printed as its text, with no store outside buf,
-- exactly when all numbers are the same as an int.
theorem vprintf_renders_iff (fmt : List UInt8) (ap : Nat → BitVec 64) (mem : BitVec 64 → List UInt8) :
    vprintf fmt ap mem = (directives ap fmt 0).map (fun d => (d, some (render digits mem d))) ↔
      ∀ len kind v, .conv (.num len kind) v ∈ directives ap fmt 0 → Fits len kind v := by
  rw [vprintf, vprintfLoop_eq _ _ _ _ (by omega), List.drop_zero, if_neg (by decide), List.nil_append,
    outputs_renders_iff printarg_iff]

-- printf("%lu", 4294967296) prints 0, and printf("%ld", 2147483648) prints -2147483648.
theorem vprintf_misrenders :
    vprintf [37, 108, 117] (fun _ => 4294967296) (fun _ => []) =
      [(.conv (.num .long .u) 4294967296, some [48])] ∧
    render digits (fun _ => []) (.conv (.num .long .u) 4294967296) =
      [52, 50, 57, 52, 57, 54, 55, 50, 57, 54] ∧
    vprintf [37, 108, 100] (fun _ => 2147483648) (fun _ => []) =
      [(.conv (.num .long .d) 2147483648, some [45, 50, 49, 52, 55, 52, 56, 51, 54, 52, 56])] ∧
    render digits (fun _ => []) (.conv (.num .long .d) 2147483648) =
      [50, 49, 52, 55, 52, 56, 51, 54, 52, 56] := by
  decide

end Xv6.Printf.User
