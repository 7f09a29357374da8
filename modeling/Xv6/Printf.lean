import Xv6.Lib.Numeral
import Mathlib.Data.Set.Function

namespace Xv6.Printf

open Lib

-- The table digits[], which has another text for each digit, and none is a minus.
structure Digits where
  text : Nat → UInt8
  inj : ∀ i < 16, ∀ j < 16, text i = text j → i = j
  minus : ∀ i < 16, text i ≠ 45

-- sizeof(buf) in printint()
def BUF : Nat := 16

-- buf[i++] = c, where the first i bytes of buf are given. There is no result if the
-- store is outside buf.
def store (buf : List UInt8) (c : UInt8) : Option (List UInt8) :=
  if buf.length < BUF then some (buf ++ [c]) else none

-- The do loop of printint(). It ends with a store outside buf after BUF rounds.
def digitLoop (digits : Digits) (base : Nat) : Nat → Nat → List UInt8 → Option (List UInt8)
  | 0, _, _ => none
  | fuel + 1, x, buf =>
    match store buf (digits.text (x % base)) with
    | none => none
    | some buf => if x / base ≠ 0 then digitLoop digits base fuel (x / base) buf else some buf

-- printint() for a type of w bits: what is printed. The negation is the one of the
-- machine, where the most negative number is its own.
def printint {w : Nat} (digits : Digits) (xx : BitVec w) (base : Nat) (sign : Bool) :
    Option (List UInt8) := do
  let neg := sign && decide (xx.toInt < 0)
  let x := if neg then -xx else xx
  let buf ← digitLoop digits base (BUF + 1) x.toNat []
  let buf ← if neg then store buf 45 else some buf
  return buf.reverse

def printptrLoop (digits : Digits) : Nat → BitVec 64 → List UInt8
  | 0, _ => []
  | i + 1, x => digits.text (x >>> 60).toNat :: printptrLoop digits i (x <<< 4)

def printptr (digits : Digits) (x : BitVec 64) : List UInt8 := 48 :: 120 :: printptrLoop digits 16 x

-- No l, one or two in front of d, u or x.
inductive Len where
  | int
  | long
  | longlong
  deriving DecidableEq

inductive Kind where
  | d
  | u
  | x
  deriving DecidableEq

def Kind.base : Kind → Nat
  | .d => 10
  | .u => 10
  | .x => 16

theorem Kind.one_lt_base (kind : Kind) : 1 < kind.base := by
  cases kind <;> decide

theorem Kind.base_le (kind : Kind) : kind.base ≤ 16 := by
  cases kind <;> decide

def Kind.sign : Kind → Bool
  | .d => true
  | .u => false
  | .x => false

-- What may follow a %.
inductive Conv where
  | num (len : Len) (kind : Kind)
  | p
  | s
  | percent
  | unknown (c0 : UInt8)
  deriving DecidableEq

-- The tests on c0, c1 and c2, which are the same in the kernel and in user programs.
def conv (c0 c1 c2 : UInt8) : Conv :=
  if c0 = 100 then .num .int .d
  else if c0 = 108 ∧ c1 = 100 then .num .long .d
  else if c0 = 108 ∧ c1 = 108 ∧ c2 = 100 then .num .longlong .d
  else if c0 = 117 then .num .int .u
  else if c0 = 108 ∧ c1 = 117 then .num .long .u
  else if c0 = 108 ∧ c1 = 108 ∧ c2 = 117 then .num .longlong .u
  else if c0 = 120 then .num .int .x
  else if c0 = 108 ∧ c1 = 120 then .num .long .x
  else if c0 = 108 ∧ c1 = 108 ∧ c2 = 120 then .num .longlong .x
  else if c0 = 112 then .p
  else if c0 = 115 then .s
  else if c0 = 37 then .percent
  else .unknown c0

-- What is added to i for the characters after c0.
def Conv.skip : Conv → Nat
  | .num .long _ => 1
  | .num .longlong _ => 2
  | _ => 0

-- How many arguments va_arg() takes.
def Conv.args : Conv → Nat
  | .num _ _ => 1
  | .p => 1
  | .s => 1
  | _ => 0

-- "(null)"
def null : List UInt8 := [40, 110, 117, 108, 108, 41]

-- What a conversion prints, where v is the next argument, mem has the strings of the
-- pointers and int calls printint().
def convert (digits : Digits) (int : Len → BitVec 64 → Nat → Bool → Option (List UInt8))
    (mem : BitVec 64 → List UInt8) (v : BitVec 64) : Conv → Option (List UInt8)
  | .num len kind => int len v kind.base kind.sign
  | .p => some (printptr digits v)
  | .s => some (if v = 0 then null else mem v)
  | .percent => some [37]
  | .unknown c0 => some [37, c0]

-- A character that is printed as it is, or a conversion with its argument. A conversion
-- without an argument has the one that is next.
inductive Directive where
  | char (c : UInt8)
  | conv (k : Conv) (v : BitVec 64)
  deriving DecidableEq

-- The directives of a format string and what is printed for each. There is nothing for
-- one that stores outside buf, and then it is the last one.
abbrev Output := List (Directive × Option (List UInt8))

-- The output for a directive, and the rest of the output after it.
def Output.cons (d : Directive) (out : Option (List UInt8)) (rest : Output) : Output :=
  (d, out) :: if out.isSome then rest else []

-- What a format string asks for: its directives, with the arguments in order. The
-- string ends at a NUL.
def directives (ap : Nat → BitVec 64) (fmt : List UInt8) (n : Nat) : List Directive :=
  match fmt with
  | [] => []
  | c :: rest =>
    if c = 0 then []
    else if c ≠ 37 then .char c :: directives ap rest n
    else
      match rest with
      | [] => []
      | c0 :: rest =>
        if c0 = 0 then []
        else
          let k := conv c0 (rest.getD 0 0) (rest.getD 1 0)
          .conv k (ap n) :: directives ap (rest.drop k.skip) (n + k.args)
termination_by fmt.length
decreasing_by
  · simp
  · simp only [List.length_drop, List.length_cons]
    omega

-- The integer that a numeric conversion is about.
def value (len : Len) (kind : Kind) (v : BitVec 64) : Int :=
  match len with
  | .int => if kind.sign then (v.setWidth 32).toInt else (v.setWidth 32).toNat
  | _ => if kind.sign then v.toInt else v.toNat

-- The numeral of an integer.
def text (digits : Digits) (base : Nat) (z : Int) : List UInt8 :=
  (if z < 0 then [45] else []) ++ (numeral base z.natAbs).map digits.text

-- The text of a directive.
def render (digits : Digits) (mem : BitVec 64 → List UInt8) : Directive → List UInt8
  | .char c => [c]
  | .conv (.num len kind) v => text digits kind.base (value len kind v)
  | .conv .p v => 48 :: 120 :: (List.range 16).map fun i => digits.text (v.toNat / 16 ^ (15 - i) % 16)
  | .conv .s v => if v = 0 then null else mem v
  | .conv .percent _ => [37]
  | .conv (.unknown c0) _ => [37, c0]

variable {digits : Digits} {base : Nat} {mem : BitVec 64 → List UInt8}

theorem text_injective (hb : 1 < base) (hle : base ≤ 16) {y z : Int}
    (h : text digits base y = text digits base z) : y = z := by
  have hnum : ∀ m n, (numeral base m).map digits.text = (numeral base n).map digits.text → m = n := by
    intro m n
    exact numeral_map_inj hb fun i hi j hj => digits.inj i (by omega) j (by omega)
  -- A numeral does not start with a minus.
  have hminus : ∀ m l, (numeral base m).map digits.text ≠ 45 :: l := by
    intro m l h
    have h45 : (45 : UInt8) ∈ (numeral base m).map digits.text := by
      rw [h]
      exact List.mem_cons_self
    obtain ⟨d, hd, h45⟩ := List.mem_map.mp h45
    exact digits.minus d (Nat.lt_of_lt_of_le (numeral_lt hb hd) hle) h45
  unfold text at h
  split at h <;> split at h
  · have := hnum _ _ (List.cons.inj h).2
    omega
  · exact absurd h.symm (hminus _ _)
  · exact absurd h (hminus _ _)
  · have := hnum _ _ h
    omega

theorem digitLoop_eq (hb : 1 < base) (fuel x : Nat) (buf : List UInt8)
    (hf : BUF < buf.length + fuel) (hbuf : buf.length ≤ BUF) :
    digitLoop digits base fuel x buf =
      if buf.length + (numeral base x).length ≤ BUF then
        some (buf ++ ((numeral base x).map digits.text).reverse) else none := by
  induction fuel generalizing x buf with
  | zero => omega
  | succ fuel ih =>
    have hnum := numeral_eq hb x
    rw [digitLoop, store]
    by_cases hroom : buf.length < BUF
    · rw [if_pos hroom]
      by_cases hq : x / base = 0
      · rw [if_pos hq, List.nil_append] at hnum
        simp [hq, hnum, hroom]
      · rw [if_neg hq] at hnum
        simp only [ne_eq, hq, not_false_eq_true, if_true]
        rw [ih _ _ (by simp; omega) (by simp; omega), hnum]
        simp [Nat.add_assoc, Nat.add_comm 1]
    · rw [if_neg hroom, if_neg]
      rw [hnum, List.length_append, List.length_singleton]
      omega

theorem toNat_neg_of_neg {w : Nat} {xx : BitVec w} (h : xx.toInt < 0) : (-xx).toNat = xx.toInt.natAbs := by
  rw [BitVec.toInt_eq_toNat_cond] at h ⊢
  rw [BitVec.toNat_neg]
  split at h
  · omega
  · rw [if_neg (by assumption), Nat.mod_eq_of_lt]
    · omega
    · omega

theorem toInt_eq_toNat_of_nonneg {w : Nat} {xx : BitVec w} (h : 0 ≤ xx.toInt) : xx.toInt = xx.toNat := by
  rw [BitVec.toInt_eq_toNat_cond] at h ⊢
  split at h
  · rw [if_pos (by assumption)]
  · omega

theorem text_of_neg {z : Int} (h : z < 0) :
    text digits base z = 45 :: (numeral base z.natAbs).map digits.text := by
  rw [text, if_pos h]
  rfl

theorem text_of_nonneg {z : Int} (h : 0 ≤ z) :
    text digits base z = (numeral base z.toNat).map digits.text := by
  rw [text, if_neg (by omega), List.nil_append]
  congr 2
  omega

-- printint() prints the numeral if it fits in buf with its sign.
theorem printint_eq {w : Nat} (hb : 1 < base) (xx : BitVec w) (sign : Bool) {z : Int}
    (hz : z = if sign then xx.toInt else (xx.toNat : Int)) :
    printint digits xx base sign =
      if (text digits base z).length ≤ BUF then some (text digits base z) else none := by
  have hloop : ∀ x, digitLoop digits base (BUF + 1) x [] =
      if (numeral base x).length ≤ BUF then
        some ((numeral base x).map digits.text).reverse else none := by
    intro x
    simpa using digitLoop_eq hb (BUF + 1) x [] (by simp) (by simp)
  by_cases hneg : sign = true ∧ xx.toInt < 0
  · obtain ⟨rfl, hlt⟩ := hneg
    rw [if_pos rfl] at hz
    subst hz
    rw [text_of_neg hlt, printint]
    simp only [Bool.true_and, hlt, decide_true, if_true, hloop, toNat_neg_of_neg hlt,
      List.length_cons, List.length_map]
    by_cases hnum : (numeral base xx.toInt.natAbs).length ≤ BUF
    · rw [if_pos hnum]
      simp only [Option.bind_eq_bind, Option.bind_some, store, List.length_reverse, List.length_map,
        Nat.lt_iff_add_one_le]
      split <;> simp
    · rw [if_neg hnum, if_neg (by omega)]
      rfl
  · have hpos : (sign && decide (xx.toInt < 0)) = false := by
      simpa [Bool.and_eq_false_iff] using hneg
    have hzx : z = xx.toNat := by
      rw [hz]
      split
      · rename_i hsign
        exact toInt_eq_toNat_of_nonneg (by simp only [hsign, true_and] at hneg; omega)
      · rfl
    rw [hzx, text_of_nonneg (by omega), printint]
    simp only [hpos, Bool.false_eq_true, if_false, hloop, List.length_map, Int.toNat_natCast]
    split <;> simp

theorem printint_eq_text_iff {w : Nat} (hb : 1 < base) (hle : base ≤ 16) (xx : BitVec w) (sign : Bool)
    {y z : Int} (hy : y = if sign then xx.toInt else (xx.toNat : Int)) :
    printint digits xx base sign = some (text digits base z) ↔
      y = z ∧ (text digits base z).length ≤ BUF := by
  rw [printint_eq hb xx sign hy]
  constructor
  · intro h
    split at h
    · rename_i hlen
      have hyz := text_injective hb hle (Option.some.inj h)
      exact ⟨hyz, hyz ▸ hlen⟩
    · exact absurd h (by simp)
  · rintro ⟨rfl, hlen⟩
    rw [if_pos hlen]

theorem text_length_le_iff (hb : 1 < base) (z : Int) :
    (text digits base z).length ≤ BUF ↔ -(base ^ 15 : Nat) < z ∧ z < (base ^ 16 : Nat) := by
  have h15 : 0 < base ^ 15 := Nat.pow_pos (by omega)
  by_cases hz : z < 0
  · have := numeral_length_le_iff hb (k := 15) (by decide) z.natAbs
    rw [text_of_neg hz, List.length_cons, List.length_map, BUF]
    omega
  · have := numeral_length_le_iff hb (k := 16) (by decide) z.toNat
    rw [text_of_nonneg (by omega), List.length_map, BUF]
    omega

theorem printptrLoop_eq (n : Nat) (x : BitVec 64) (hn : n ≤ 16) :
    printptrLoop digits n x =
      (List.range n).map fun i => digits.text (x.toNat / 16 ^ (15 - i) % 16) := by
  induction n generalizing x with
  | zero => rfl
  | succ n ih =>
    rw [printptrLoop, ih _ (by omega), List.range_succ_eq_map, List.map_cons, List.map_map]
    congr 1
    · congr 1
      rw [BitVec.toNat_ushiftRight, Nat.shiftRight_eq_div_pow]
      omega
    · apply List.map_congr_left
      intro i hi
      have hi := List.mem_range.mp hi
      obtain ⟨k, hk⟩ : ∃ k, 15 - i = k + 1 ∧ 15 - (i + 1) = k := ⟨14 - i, by omega⟩
      have hsize : 2 ^ 64 = 16 ^ (k + 1) * 16 ^ (15 - k) := by
        rw [← Nat.pow_add, show k + 1 + (15 - k) = 16 by omega]
        decide
      have hdvd : 16 ∣ 16 ^ (15 - k) := Dvd.intro_left (16 ^ (14 - k)) (by
        rw [← Nat.pow_succ, show (14 - k).succ = 15 - k by omega])
      rw [Function.comp_apply, hk.1, hk.2, BitVec.toNat_shiftLeft, Nat.shiftLeft_eq, hsize,
        Nat.mod_mul_right_div_self, Nat.mod_mod_of_dvd _ hdvd, show 2 ^ 4 = 16 from rfl,
        Nat.pow_succ 16 k, Nat.mul_div_mul_right _ _ (by decide)]

theorem printptr_eq (x : BitVec 64) :
    printptr digits x =
      48 :: 120 :: (List.range 16).map fun i => digits.text (x.toNat / 16 ^ (15 - i) % 16) := by
  rw [printptr, printptrLoop_eq 16 x (Nat.le_refl _)]

-- The output for a list of directives.
def outputs (out : Directive → Option (List UInt8)) : List Directive → Output
  | [] => []
  | d :: ds => .cons d (out d) (outputs out ds)

theorem outputs_eq_iff (out : Directive → Option (List UInt8)) (ds : List Directive) :
    outputs out ds = ds.map (fun d => (d, some (render digits mem d))) ↔
      ∀ d ∈ ds, out d = some (render digits mem d) := by
  induction ds with
  | nil => simp [outputs]
  | cons d ds ih =>
    rw [outputs, Output.cons, List.map_cons, List.cons.injEq, Prod.mk.injEq, List.forall_mem_cons, ← ih]
    constructor
    · rintro ⟨⟨-, hd⟩, hds⟩
      rw [hd] at hds
      exact ⟨hd, hds⟩
    · rintro ⟨hd, hds⟩
      rw [hd]
      exact ⟨⟨rfl, rfl⟩, hds⟩

-- What is printed for a directive, where int calls printint().
def out (digits : Digits) (int : Len → BitVec 64 → Nat → Bool → Option (List UInt8))
    (mem : BitVec 64 → List UInt8) : Directive → Option (List UInt8)
  | .char c => some [c]
  | .conv k v => convert digits int mem v k

theorem outputs_renders_iff {int : Len → BitVec 64 → Nat → Bool → Option (List UInt8)}
    {Fits : Len → Kind → BitVec 64 → Prop}
    (h : ∀ len kind v, int len v kind.base kind.sign = some (text digits kind.base (value len kind v)) ↔
      Fits len kind v) (ds : List Directive) :
    outputs (out digits int mem) ds = ds.map (fun d => (d, some (render digits mem d))) ↔
      ∀ len kind v, .conv (.num len kind) v ∈ ds → Fits len kind v := by
  rw [outputs_eq_iff]
  constructor
  · intro hds len kind v hd
    exact (h len kind v).mp (hds _ hd)
  · intro hfits d hd
    cases d with
    | char c => rfl
    | conv k v =>
      cases k with
      | num len kind => exact (h len kind v).mpr (hfits len kind v hd)
      | p => exact congrArg some (printptr_eq v)
      | s => rfl
      | percent => rfl
      | unknown c0 => rfl

theorem conv_of_end (c0 c1 c2 : UInt8) : conv c0 c1 (if ¬c1 = 0 then c2 else 0) = conv c0 c1 c2 := by
  by_cases h : c1 = 0
  · simp [conv, h]
  · rw [if_pos h]

section

variable {ap : Nat → BitVec 64} {c c0 : UInt8} {rest : List UInt8} {n : Nat}

theorem directives_nul (h : rest.getD 0 0 = 0) : directives ap rest n = [] := by
  rw [directives.eq_def]
  cases rest with
  | nil => rfl
  | cons c rest => exact if_pos h

theorem directives_char (h0 : c ≠ 0) (h : c ≠ 37) :
    directives ap (c :: rest) n = .char c :: directives ap rest n := by
  rw [directives.eq_def]
  simp only [h0, if_false, h, ne_eq, not_false_eq_true, if_true]

theorem directives_percent (h : rest.getD 0 0 = 0) : directives ap (37 :: rest) n = [] := by
  rw [directives.eq_def]
  cases rest with
  | nil => rfl
  | cons c0 rest => exact if_pos h

theorem directives_conv (h0 : c0 ≠ 0) {k : Conv} (hk : k = conv c0 (rest.getD 0 0) (rest.getD 1 0)) :
    directives ap (37 :: c0 :: rest) n =
      .conv k (ap n) :: directives ap (rest.drop k.skip) (n + k.args) := by
  rw [directives.eq_def, hk]
  exact if_neg h0

theorem fmtCases {motive : List UInt8 → Prop} (fmt : List UInt8)
    (nul : fmt.getD 0 0 = 0 → motive fmt)
    (char : ∀ c rest, c ≠ 0 → c ≠ 37 → motive (c :: rest))
    (percent : ∀ rest, rest.getD 0 0 = 0 → motive (37 :: rest))
    (conv : ∀ c0 rest, c0 ≠ 0 → motive (37 :: c0 :: rest)) : motive fmt := by
  cases fmt with
  | nil => exact nul rfl
  | cons c rest =>
    by_cases h0 : c = 0
    · exact nul h0
    · by_cases h37 : c = 37
      · subst h37
        cases rest with
        | nil => exact percent _ rfl
        | cons c0 rest =>
          by_cases hc : c0 = 0
          · exact percent _ hc
          · exact conv c0 rest hc
      · exact char c rest h0 h37

end

theorem getD_of_drop {fmt rest : List UInt8} {i : Nat} (h : fmt.drop i = rest) (j : Nat) :
    fmt.getD (i + j) 0 = rest.getD j 0 := by
  rw [← h, List.getD_eq_getElem?_getD, List.getD_eq_getElem?_getD, List.getElem?_drop]

theorem drop_of_drop {fmt rest : List UInt8} {i : Nat} (h : fmt.drop i = rest) (j : Nat) :
    fmt.drop (i + j) = rest.drop j := by
  rw [← h, List.drop_drop]

end Xv6.Printf
