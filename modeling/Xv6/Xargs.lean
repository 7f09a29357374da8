import Xv6.Lib.Words

namespace Xv6.Xargs

-- The size of buf, and of arg and prev_it_remaining.
def BUF : Nat := 512
def ARG : Nat := 128

def isDelimiter (c : UInt8) : Bool := c == 32 || c == 10 || c == 0

-- The variables of main() that the loop changes: buf, the first
-- prev_it_remaining_len bytes of prev_it_remaining, error, and the words that the
-- children have in arg.
structure State where
  buf : List UInt8
  prev : List UInt8
  error : Bool
  args : List (List UInt8)

def start : State := ⟨List.replicate BUF 0, [], false, []⟩

-- What read() leaves in buf.
def fill (chunk buf : List UInt8) : List UInt8 := chunk ++ buf.drop chunk.length

-- The word at the start of rest, which is buf from buf[i] on, of which n bytes have
-- been read.
def word (n : Nat) (rest : List UInt8) : List UInt8 := (rest.take n).takeWhile fun c => !isDelimiter c

-- buf[i] after the word. For i = sizeof(buf) this is a byte past the end of buf.
def next (past : UInt8) (n : Nat) (rest : List UInt8) : UInt8 :=
  (rest.drop (word n rest).length).headD past

-- One round of the inner loop.
def round (past : UInt8) (n : Nat) (rest : List UInt8) (st : State) : State :=
  let arg := word n rest
  if isDelimiter (next past n rest) && st.prev.isEmpty then
    if ARG ≤ arg.length then { st with error := true }
    else { st with args := st.args ++ [arg] }
  else if isDelimiter (next past n rest) then
    if arg.length + st.prev.length < ARG then { st with error := true }
    else { st with args := st.args ++ [st.prev ++ arg], prev := [] }
  else { st with prev := arg }

-- The inner loop. Each round takes a byte at least.
def scan (past : UInt8) : Nat → Nat → List UInt8 → State → State
  | 0, _, _, st => st
  | fuel + 1, n, rest, st =>
    if n = 0 then st
    else
      let st := round past n rest st
      if st.error then st
      else
        let len := (word n rest).length + 1
        scan past fuel (n - len) (rest.drop len) st

-- The loop that reads: the chunks that read() returns, each one with the byte that
-- follows buf then.
def loop : List (List UInt8 × UInt8) → State → State
  | [], st => st
  | (chunk, past) :: reads, st =>
    if st.error then st
    else
      let buf := fill chunk st.buf
      loop reads (scan past chunk.length chunk.length buf { st with buf := buf })

-- The argument vectors that exec() gets: the arguments of xargs, and a word.
def main (argv : List (List UInt8)) (reads : List (List UInt8 × UInt8)) :
    List (List (List UInt8)) :=
  if argv.length < 2 then []
  else (loop reads start).args.map fun arg => argv.tail ++ [arg]

end Xv6.Xargs
