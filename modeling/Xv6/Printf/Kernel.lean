import Xv6.Printf

namespace Xv6.Printf.Kernel

open Lib

-- "0123456789abcdef"
def digits : Digits where
  text i := ([48, 49, 50, 51, 52, 53, 54, 55, 56, 57, 97, 98, 99, 100, 101, 102] : List UInt8).getD i 0
  inj := by decide
  minus := by decide

theorem digits_ascii : ∀ i < 16, (digits.text i).toNat =
    if i < 10 then '0'.toNat + i else 'a'.toNat + (i - 10) := by decide

-- printint(long long xx, int base, int sign)
def printint (xx : BitVec 64) (base : Nat) (sign : Bool) : Option (List UInt8) :=
  Printf.printint digits xx base sign

-- printint(va_arg(ap, int), ..) or printint(va_arg(ap, uint64), ..)
def printarg : Len → BitVec 64 → Nat → Bool → Option (List UInt8)
  | .int, v => printint ((v.setWidth 32).signExtend 64)
  | .long, v => printint v
  | .longlong, v => printint v

-- The loop of printf() from fmt[i] on, where n arguments have been taken.
def printfLoop (fmt : List UInt8) (ap : Nat → BitVec 64) (mem : BitVec 64 → List UInt8) :
    Nat → Nat → Nat → Output
  | 0, _, _ => []
  | fuel + 1, i, n =>
    let cx := fmt.getD i 0
    if cx = 0 then []
    else if cx ≠ 37 then .cons (.char cx) (some [cx]) (printfLoop fmt ap mem fuel (i + 1) n)
    else
      let i := i + 1
      let c0 := fmt.getD i 0
      let c1 := if c0 ≠ 0 then fmt.getD (i + 1) 0 else 0
      let c2 := if c1 ≠ 0 then fmt.getD (i + 2) 0 else 0
      if c0 = 0 then []
      else
        let k := conv c0 c1 c2
        .cons (.conv k (ap n)) (convert digits printarg mem (ap n) k)
          (printfLoop fmt ap mem fuel (i + k.skip + 1) (n + k.args))

def printf (fmt : List UInt8) (ap : Nat → BitVec 64) (mem : BitVec 64 → List UInt8) : Output :=
  printfLoop fmt ap mem (fmt.length + 1) 0 0

variable {fmt : List UInt8} {ap : Nat → BitVec 64} {mem : BitVec 64 → List UInt8}

-- The loop goes over the directives of what is left of the string.
theorem printfLoop_eq (fuel i n : Nat) (hf : fmt.length < i + fuel) :
    printfLoop fmt ap mem fuel i n = outputs (out digits printarg mem) (directives ap (fmt.drop i) n) := by
  induction fuel generalizing i n with
  | zero =>
    rw [List.drop_eq_nil_of_le (by omega), directives_nul rfl]
    rfl
  | succ fuel ih =>
    generalize hs : fmt.drop i = s
    have hget := getD_of_drop hs
    have hdrop := drop_of_drop hs
    have hcx : fmt.getD i 0 = s.getD 0 0 := hget 0
    rw [printfLoop]
    induction s using fmtCases with
    | nul h =>
      simp only [hcx, h, directives_nul h, if_true, outputs]
    | char c rest h0 h37 =>
      have hcx : fmt.getD i 0 = c := hcx
      simp only [hcx, h0, h37, if_false, ne_eq, not_false_eq_true, if_true]
      rw [ih _ _ (by omega), hdrop, directives_char h0 h37]
      rfl
    | percent rest h =>
      have hcx : fmt.getD i 0 = 37 := hcx
      have hc0 : fmt.getD (i + 1) 0 = 0 := by
        rw [hget]
        exact h
      simp only [hcx, hc0, if_true, directives_percent h]
      rfl
    | conv c0 rest h0 =>
      have hcx : fmt.getD i 0 = 37 := hcx
      have hc0 : fmt.getD (i + 1) 0 = c0 := hget 1
      have hc1 : fmt.getD (i + 1 + 1) 0 = rest.getD 0 0 := hget 2
      have hc2 : fmt.getD (i + 1 + 2) 0 = rest.getD 1 0 := hget 3
      have hnext : ∀ m, fmt.drop (i + 1 + m + 1) = rest.drop m := by
        intro m
        rw [show i + 1 + m + 1 = i + (m + 2) by omega, hdrop]
        rfl
      simp only [hcx, hc0, hc1, hc2, h0, ne_eq, not_false_eq_true, if_true, if_false, conv_of_end]
      rw [if_neg (by decide), if_neg (by decide), ih _ _ (by omega), hnext, directives_conv h0 rfl]
      rfl

-- The numbers that printint() gets right: a 32-bit number must not look negative if it
-- has no sign, and the numeral of a 64-bit number must have 16 characters at most.
def Fits : Len → Kind → BitVec 64 → Prop
  | .int, .d, _ => True
  | .int, _, v => (v.setWidth 32).toNat < 2 ^ 31
  | _, .d, v => -10 ^ 15 < v.toInt ∧ v.toInt < 10 ^ 16
  | _, .u, v => v.toNat < 10 ^ 16
  | _, .x, _ => True

theorem toNat_signExtend_eq_iff (v : BitVec 32) : (v.signExtend 64).toNat = v.toNat ↔ v.toNat < 2 ^ 31 := by
  rw [BitVec.toNat_signExtend, BitVec.toNat_setWidth, BitVec.msb_eq_decide]
  simp only [decide_eq_true_eq]
  split <;> omega

theorem printarg_iff (len : Len) (kind : Kind) (v : BitVec 64) :
    printarg len v kind.base kind.sign = some (text digits kind.base (value len kind v)) ↔
      Fits len kind v := by
  have h64 : ∀ xx : BitVec 64, ∀ {y z : Int}, y = (if kind.sign then xx.toInt else (xx.toNat : Int)) →
      (printint xx kind.base kind.sign = some (text digits kind.base z) ↔
        y = z ∧ -(kind.base ^ 15 : Nat) < z ∧ z < (kind.base ^ 16 : Nat)) := by
    intro xx y z hy
    rw [printint, printint_eq_text_iff kind.one_lt_base kind.base_le xx kind.sign hy,
      text_length_le_iff kind.one_lt_base]
  have hs := toNat_signExtend_eq_iff (v.setWidth 32)
  have hi := BitVec.toInt_signExtend_of_le (x := v.setWidth 32) (v := 64) (by decide)
  have hlt := (v.setWidth 32).toInt_lt
  have hle := (v.setWidth 32).le_toInt
  cases len with
  | int =>
    rw [printarg, h64 _ rfl]
    cases kind <;>
      simp only [value, Kind.sign, Kind.base, Fits, if_true, Bool.false_eq_true, if_false, hi, iff_true, true_and] <;>
      omega
  | long =>
    rw [printarg, h64 _ rfl]
    cases kind <;> simp [value, Kind.sign, Kind.base, Fits] <;> omega
  | longlong =>
    rw [printarg, h64 _ rfl]
    cases kind <;> simp [value, Kind.sign, Kind.base, Fits] <;> omega

-- Each directive of the format string is printed as its text, with no store outside buf,
-- exactly when all numbers fit.
theorem printf_renders_iff (fmt : List UInt8) (ap : Nat → BitVec 64) (mem : BitVec 64 → List UInt8) :
    printf fmt ap mem = (directives ap fmt 0).map (fun d => (d, some (render digits mem d))) ↔
      ∀ len kind v, .conv (.num len kind) v ∈ directives ap fmt 0 → Fits len kind v := by
  rw [printf, printfLoop_eq _ _ _ (by omega), List.drop_zero, outputs_renders_iff printarg_iff]

-- printf("%u", 0x80000000) and printf("%ld", 10000000000000000) store outside buf, and
-- printf("%x", 0x80000000) prints ffffffff80000000.
theorem printf_misrenders :
    printf [37, 117] (fun _ => 0x80000000) (fun _ => []) = [(.conv (.num .int .u) 0x80000000, none)] ∧
    printf [37, 108, 100] (fun _ => 10000000000000000) (fun _ => []) =
      [(.conv (.num .long .d) 10000000000000000, none)] ∧
    printf [37, 120] (fun _ => 0x80000000) (fun _ => []) =
      [(.conv (.num .int .x) 0x80000000,
        some [102, 102, 102, 102, 102, 102, 102, 102, 56, 48, 48, 48, 48, 48, 48, 48])] ∧
    render digits (fun _ => []) (.conv (.num .int .x) 0x80000000) = [56, 48, 48, 48, 48, 48, 48, 48] := by
  refine ⟨by decide, by decide, by decide, ?_⟩
  decide

end Xv6.Printf.Kernel
