import Xv6.Fs
import Mathlib.Data.List.DropRight

namespace Xv6.Find

open Fs

-- A file, a device or a directory, as a path leads to it. The entries of a
-- directory that are not in use are none, and . and .. are left out.
inductive Node where
  | file
  | device (major : Int)
  | dir (slots : List (Option (List UInt8 × Node)))

-- The current directory of the process, and those above it, the nearest one first.
structure World where
  cwd : Node
  up : List Node

def World.root (w : World) : Node := w.up.getLastD w.cwd

-- The names that read() returns, where none is an entry with inum 0.
def dirents (slots : List (Option (List UInt8 × Node))) : List (Option (List UInt8)) :=
  some DOT :: some DOTDOT :: slots.map fun e => e.map Prod.fst

def lookup (name : List UInt8) (slots : List (Option (List UInt8 × Node))) : Option Node :=
  slots.findSome? fun e => e.bind fun e => if namecmp name e.1 then some e.2 else none

-- One round of namex().
def descend (name : List UInt8) : Node × List Node → Option (Node × List Node)
  | (.dir slots, up) =>
    if name = DOT then some (.dir slots, up)
    else if name = DOTDOT then some (up.headD (.dir slots), up.tail)
    else (lookup name slots).map fun child => (child, .dir slots :: up)
  | _ => none

def namei (w : World) (path : List UInt8) : Option (Node × List Node) :=
  (elements path.length path).foldlM (fun pos name => descend name pos)
    (if path.head? = some SLASH then (w.root, []) else (w.cwd, w.up))

-- open(path, O_RDONLY) of a process that has a free descriptor.
def openPath (w : World) (path : List UInt8) : Option Node :=
  if MAXPATH ≤ path.length then none
  else
    match namei w path with
    | some (.device major, _) => if major < 0 ∨ NDEV ≤ major then none else some (.device major)
    | some (node, _) => some node
    | none => none

-- The bytes after the last slash.
def basename (path : List UInt8) : List UInt8 := path.rtakeWhile (· ≠ SLASH)

def fmtname (path : List UInt8) : List UInt8 :=
  let p := basename path
  if DIRSIZ ≤ p.length then p else p ++ List.replicate (DIRSIZ - p.length) 32

-- memcmp(s1, s2, n) == 0
def memcmp : Nat → List UInt8 → List UInt8 → Bool
  | n + 1, a :: s1, b :: s2 => a == b && memcmp n s1 s2
  | 0, _, _ => true
  | _, _, _ => false

-- What find() prints.
inductive Out where
  | found (path : List UInt8)
  | failed (path : List UInt8)
  deriving DecidableEq

-- The loop over the entries of a directory. The name of an entry ends where its
-- field ends, or at a NUL before. Without the NUL the behavior of strlen(de.name)
-- is undefined, which is none.
def findLoop (visit : List UInt8 → Option (List Out)) :
    List (Option (List UInt8)) → Option (List Out)
  | [] => some []
  | none :: rest => findLoop visit rest
  | some name :: rest =>
    if name = DOTDOT ∨ name = DOT then findLoop visit rest
    else if DIRSIZ ≤ name.length then none
    else
      match visit name, findLoop visit rest with
      | some out, some more => some (out ++ more)
      | _, _ => none

-- find(path, target), with the number of descriptors that are free.
def find (w : World) (target : List UInt8) : Nat → List UInt8 → Option (List Out)
  | 0, path => some [.failed path]
  | free + 1, path =>
    match openPath w path with
    | none => some [.failed path]
    | some (.dir slots) =>
      findLoop (fun name => find w target free (path ++ SLASH :: name)) (dirents slots)
    | some _ =>
      some (if memcmp target.length (fmtname path ++ [0]) (target ++ [0]) then [.found path]
        else [])

-- The standard input, output and error are open.
def FREE : Nat := NOFILE - 3

end Xv6.Find
