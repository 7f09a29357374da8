import Mathlib.Data.List.Basic

namespace Xv6.Grep

-- The characters that the matcher looks for.
def CARET : UInt8 := 94
def STAR : UInt8 := 42
def DOLLAR : UInt8 := 36
def DOT : UInt8 := 46
def NEWLINE : UInt8 := 10

-- The size of buf.
def BUF : Nat := 1024

-- Strings are the bytes before the NUL at their end.
mutual

def matchhere (re text : List UInt8) : Bool :=
  match re with
  | [] => true
  | c :: re =>
    if re.head? = some STAR then matchstar c re.tail text
    else if c = DOLLAR ∧ re = [] then text.isEmpty
    else
      match text with
      | [] => false
      | t :: text => if c = DOT ∨ c = t then matchhere re text else false
termination_by (re.length, text.length, 0)

def matchstar (c : UInt8) (re text : List UInt8) : Bool :=
  if matchhere re text then true
  else
    match text with
    | [] => false
    | t :: text => if t = c ∨ c = DOT then matchstar c re text else false
termination_by (re.length, text.length, 1)

end

-- The do loop of match(), which looks at the empty string too.
def matchfrom (re : List UInt8) : List UInt8 → Bool
  | [] => matchhere re []
  | t :: text => if matchhere re (t :: text) then true else matchfrom re text

-- match()
def matchText (re text : List UInt8) : Bool :=
  if re.head? = some CARET then matchhere re.tail text else matchfrom re text

-- The place of the first c in the string at the start of s, which ends at a NUL.
def strchr (c : UInt8) : List UInt8 → Option Nat
  | [] => none
  | a :: s => if a = 0 then none else if a = c then some 0 else (strchr c s).map (· + 1)

theorem lt_of_strchr {c : UInt8} {s : List UInt8} {q : Nat} (h : strchr c s = some q) :
    q < s.length := by
  induction s generalizing q with
  | nil => cases h
  | cons a s ih =>
    simp only [strchr] at h
    split at h
    · cases h
    split at h
    · cases h
      simp
    · obtain ⟨q', hq, rfl⟩ := Option.map_eq_some_iff.mp h
      have hlt := ih hq
      simp only [List.length_cons]
      omega

-- The inner loop from p on: what it writes, and the bytes that stay from p on.
def lines (pattern p : List UInt8) : List (List UInt8) × List UInt8 :=
  match hq : strchr NEWLINE p with
  | none => ([], p)
  | some q =>
    let rest := lines pattern (p.drop (q + 1))
    if matchText pattern (p.take q) then (p.take (q + 1) :: rest.1, rest.2) else rest
termination_by p.length
decreasing_by
  have hlt := lt_of_strchr hq
  simp only [List.length_drop]
  omega

-- How much read() returns, of a stream with left bytes, when it is asked for n bytes
-- and would return want: all that it may return if it is not 0 bytes.
def readLen (want n left : Nat) : Nat := min (max 1 want) (min n left)

-- grep() with the first m bytes of buf, at its i-th read.
def grepFrom (pattern : List UInt8) (want : Nat → Nat) (i : Nat) (buf input : List UInt8) :
    List (List UInt8) :=
  let n := readLen (want i) (BUF - buf.length - 1) input.length
  if n = 0 then []
  else
    let found := lines pattern (buf ++ input.take n)
    found.1 ++ grepFrom pattern want (i + 1) found.2 (input.drop n)
termination_by input.length
decreasing_by
  have hle : n ≤ input.length := by simp only [n, readLen]; omega
  simp only [List.length_drop]
  omega

-- The writes of grep(), where want says how read() splits the input.
def grep (pattern : List UInt8) (want : Nat → Nat) (input : List UInt8) : List (List UInt8) :=
  grepFrom pattern want 0 [] input

end Xv6.Grep
