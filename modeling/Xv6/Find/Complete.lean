import Xv6.Find.Reports
import Xv6.Fs.Namei

namespace Xv6.Find

open Fs Lib

variable {w : World} {target path p name start : List UInt8} {free k : Nat}
  {slots : List (Option (List UInt8 × Node))} {out : List Out}

section Dirlookup

variable {sb : Superblock} {s : Sys} {i : Slot} {n off : Nat}

-- The entry of directory n at off, where tree has the node of each inode.
def entryAt (tree : Nat → Node) (s : Sys) (n off : Nat) : Option (List UInt8 × Node) :=
  let de := Dirent.decode (((s.contents n).drop off).take DIRENT)
  if de.inum = 0 then none else some (de.name, tree de.inum)

variable (hfs : HoleFree sb s) (hi : InSlot s i n)

include hfs hi

theorem readDirent_run (hoff : off + DIRENT ≤ (s.dinode n).size) (msg : String) :
    (readDirent sb i off msg).run s =
      .done s (Dirent.decode (((s.contents n).drop off).take DIRENT)) := by
  have hsmall := hfs.small n hi.type
  have hmax : MAXFILE * BSIZE < 2 ^ 32 := by decide
  have hlen : (((s.contents n).drop off).take DIRENT).length = DIRENT := by
    rw [List.length_take, List.length_drop, length_contents]
    omega
  rw [readDirent, Prog.run_bind, readi_run hfs hi (show ∀ tot m, kernelDst tot m = true from
    fun _ _ => rfl) off DIRENT (by decide), if_neg (by omega)]
  simp only [hlen, if_true]
  rfl

-- lookup() finds the node of the inode that dirlookup() gets.
theorem dirlookupLoop_refines (p : Nat) (tree : Nat → Node) {offs : List Nat}
    (h : ∀ off ∈ offs, off + DIRENT ≤ (s.dinode n).size) :
    match lookup name (offs.map (entryAt tree s n)) with
    | none => (dirlookupLoop sb p i name offs).run s = .done s none
    | some child => ∃ m off, tree m = child ∧ (dirlookupLoop sb p i name offs).run s =
        (iget p (s.inode i).dev m >>= fun j => pure (some (j, off))).run s := by
  induction offs with
  | nil => rfl
  | cons off offs ih =>
    obtain ⟨hoff, hoffs⟩ := List.forall_mem_cons.mp h
    rw [dirlookupLoop, Prog.run_bind, readDirent_run hfs hi hoff, List.map_cons, lookup,
      List.findSome?_cons, entryAt]
    generalize Dirent.decode (((s.contents n).drop off).take DIRENT) = de
    by_cases hfree : de.inum = 0
    · simp only [if_pos hfree, Option.bind_none]
      exact ih hoffs
    · simp only [if_neg hfree, Option.bind_some]
      by_cases hcmp : namecmp name de.name = true
      · simp only [hcmp, if_true]
        exact ⟨de.inum, off, rfl, rfl⟩
      · simp only [hcmp]
        exact ih hoffs

end Dirlookup

-- A name that can be an element of a path.
structure Name (name : List UInt8) : Prop where
  ne : name ≠ []
  short : name.length ≤ DIRSIZ
  slash : SLASH ∉ name

theorem Slots.isName (h : Slots slots) (hname : name ∈ names slots) : Name name :=
  ⟨(h.named name hname).1, (h.named name hname).2.1, (h.named name hname).2.2⟩

theorem elements_name (hname : Name name) :
    elements (path ++ SLASH :: name).length (path ++ SLASH :: name) =
      elements path.length path ++ [name] := by
  have hfree : ∀ c ∈ name, isSlash c = false := fun c hc =>
    decide_eq_false fun heq => hname.slash (heq ▸ hc)
  rw [elements_eq_words le_rfl, elements_eq_words le_rfl, words_append (by decide),
    words_run hfree hname.ne, List.map_append]
  have hlast : words isSlash (path ++ [SLASH]) = words isSlash path := by
    induction path using splitInduction isSlash with
    | run u hu => rw [words_sep hu (by decide), words_nil, List.append_nil]
    | sep u x l hu hx ih =>
      rw [List.append_assoc, List.cons_append, words_sep hu hx, ih, words_sep hu hx]
  rw [hlast, List.map_singleton, List.take_of_length_le hname.short]

theorem namei_name (hpath : path ≠ []) (hname : Name name) :
    namei w (path ++ SLASH :: name) = (namei w path).bind (descend name) := by
  unfold namei
  have hhead : (path ++ SLASH :: name).head? = path.head? := by
    cases path with
    | nil => exact absurd rfl hpath
    | cons c path => rfl
  rw [elements_name hname, hhead, List.foldlM_append]
  simp only [List.foldlM_cons, List.foldlM_nil, bind_pure]
  rfl

theorem namecmp_iff {a b : List UInt8} (ha : a.length ≤ DIRSIZ) (hb : b.length ≤ DIRSIZ) :
    namecmp a b = true ↔ a = b := by
  rw [namecmp, beq_iff_eq, List.take_of_length_le ha, List.take_of_length_le hb]

theorem lookup_eq {child : Node} (hnodup : (names slots).Nodup)
    (hshort : ∀ n ∈ names slots, n.length ≤ DIRSIZ) (hmem : some (name, child) ∈ slots) :
    lookup name slots = some child := by
  induction slots with
  | nil => cases hmem
  | cons e slots ih =>
    cases e with
    | none =>
      rcases List.mem_cons.mp hmem with heq | hmem
      · cases heq
      · exact ih hnodup hshort hmem
    | some e =>
      obtain ⟨n, c⟩ := e
      have hnames : names (some (n, c) :: slots) = n :: names slots := rfl
      rw [hnames, List.nodup_cons] at hnodup
      rw [hnames, List.forall_mem_cons] at hshort
      rw [lookup, List.findSome?_cons]
      rcases List.mem_cons.mp hmem with heq | hmem
      · cases heq
        have hcmp : namecmp name name = true := (namecmp_iff hshort.1 hshort.1).mpr rfl
        simp [hcmp]
      · have hname := mem_names hmem
        have hcmp : ¬ namecmp name n = true := fun h => by
          rw [namecmp_iff (hshort.2 name hname) hshort.1] at h
          exact hnodup.1 (h ▸ hname)
        simp only [Option.bind_some, if_neg hcmp]
        exact ih hnodup.2 hshort.2 hmem

theorem descend_child {child : Node} {up : List Node} (h : Slots slots)
    (hmem : some (name, child) ∈ slots) :
    descend name (.dir slots, up) = some (child, .dir slots :: up) := by
  have hname := mem_names hmem
  rw [descend, if_neg (h.dots name hname).1, if_neg (h.dots name hname).2,
    lookup_eq h.nodup (fun n hn => (h.named n hn).2.1) hmem]
  rfl

-- The path of a node below the starting path.
def pathOf (start : List UInt8) (names : List (List UInt8)) : List UInt8 :=
  start ++ names.flatMap fun name => SLASH :: name

theorem pathOf_nil (start : List UInt8) : pathOf start [] = start := by
  simp [pathOf]

theorem pathOf_cons (start name : List UInt8) (names : List (List UInt8)) :
    pathOf start (name :: names) = pathOf (start ++ SLASH :: name) names := by
  simp [pathOf]

theorem namei_at {node child : Node} {names : List (List UInt8)} {up : List Node}
    (hat : node.At names child) (hok : node.Ok) (hstart : start ≠ [])
    (h : namei w start = some (node, up)) :
    ∃ up, namei w (pathOf start names) = some (child, up) := by
  induction hat generalizing start up with
  | here node =>
    rw [pathOf_nil]
    exact ⟨up, h⟩
  | @entry slots name child node names hmem hat ih =>
    have hslots := hok [] slots (.here _)
    rw [pathOf_cons]
    have hnext : namei w (start ++ SLASH :: name) = some (child, .dir slots :: up) := by
      rw [namei_name hstart (hslots.isName (mem_names hmem)), h]
      exact descend_child hslots hmem
    exact ih (hok.child hmem) (by simp) hnext

-- What open() makes of a node.
def Node.Opens : Node → Prop
  | .device major => 0 ≤ major ∧ major < NDEV
  | _ => True

theorem openPath_eq {node : Node} {up : List Node} (hlen : path.length < MAXPATH)
    (h : namei w path = some (node, up)) (hopens : node.Opens) : openPath w path = some node := by
  rw [openPath, if_neg (not_le.mpr hlen), h]
  cases node with
  | file => rfl
  | dir slots => rfl
  | device major =>
    obtain ⟨hlo, hhi⟩ := hopens
    exact if_neg (by omega)

theorem opens_of_openPath {node node' : Node} {up : List Node}
    (h : namei w path = some (node, up)) (hopen : openPath w path = some node') :
    node' = node ∧ node.Opens := by
  rw [openPath, h] at hopen
  split at hopen
  · cases hopen
  · cases node with
    | file =>
      cases hopen
      exact ⟨rfl, trivial⟩
    | dir slots =>
      cases hopen
      exact ⟨rfl, trivial⟩
    | device major =>
      dsimp only at hopen
      split at hopen
      · cases hopen
      · rename_i hmajor
        cases hopen
        exact ⟨rfl, by unfold Node.Opens; omega⟩

section Tree

variable {node child : Node} {up : List Node}

-- find() comes to a node if there are descriptors for all the directories above it.
theorem Node.At.isBelow {names : List (List UInt8)} (hat : node.At names child) (hok : node.Ok)
    (hstart : start ≠ []) (h : namei w start = some (node, up))
    (hshort : ∀ names' node', node.At names' node' → (pathOf start names').length < MAXPATH)
    (hfree : names.length ≤ free) :
    Below w free start (free - names.length) (pathOf start names) := by
  induction hat generalizing start up free with
  | here node =>
    rw [pathOf_nil]
    exact .here free start
  | @entry slots name child node names hmem hat ih =>
    obtain ⟨free, rfl⟩ : ∃ k, free = k + 1 :=
      Nat.exists_eq_succ_of_ne_zero fun hz => by
        rw [hz] at hfree
        cases hfree
    have hslots := hok [] slots (.here _)
    have hname : Visited slots name := by
      rw [Visited, hslots.visited]
      exact mem_names hmem
    have hlen : start.length < MAXPATH := by
      have hlen := hshort [] _ (.here _)
      rwa [pathOf_nil] at hlen
    have hnext : namei w (start ++ SLASH :: name) = some (child, .dir slots :: up) := by
      rw [namei_name hstart (hslots.isName (mem_names hmem)), h]
      exact descend_child hslots hmem
    rw [pathOf_cons, List.length_cons, Nat.add_sub_add_right]
    refine .entry (openPath_eq hlen h trivial) hname (ih (hok.child hmem) (by simp) hnext
      (fun names' node' hat' => ?_) (Nat.le_of_succ_le_succ hfree))
    rw [← pathOf_cons]
    exact hshort (name :: names') node' (.entry hmem hat')

theorem Below.at (hbelow : Below w free start k p) (hok : node.Ok) (hstart : start ≠ [])
    (h : namei w start = some (node, up)) :
    ∃ names child, node.At names child ∧ p = pathOf start names ∧ k + names.length = free := by
  induction hbelow generalizing node up with
  | here free path => exact ⟨[], node, .here node, (pathOf_nil path).symm, rfl⟩
  | @entry free k path p name slots hopen hname hbelow ih =>
    obtain ⟨rfl, -⟩ := opens_of_openPath h hopen
    have hslots := hok [] slots (.here _)
    rw [Visited, hslots.visited] at hname
    obtain ⟨child, hmem⟩ := exists_of_mem_names hname
    have hnext : namei w (path ++ SLASH :: name) = some (child, .dir slots :: up) := by
      rw [namei_name hstart (hslots.isName hname), h]
      exact descend_child hslots hmem
    obtain ⟨names, child', hat, rfl, hlen⟩ := ih (hok.child hmem) (by simp) hnext
    refine ⟨name :: names, child', .entry hmem hat, (pathOf_cons ..).symm, ?_⟩
    rw [List.length_cons]
    omega

theorem Node.At.isName {names : List (List UInt8)} (hat : node.At names child) (hok : node.Ok) :
    ∀ name ∈ names, Name name := by
  induction hat with
  | here node => exact fun _ hmem => by cases hmem
  | @entry slots name child node names hmem hat ih =>
    rw [List.forall_mem_cons]
    exact ⟨(hok [] slots (.here _)).isName (mem_names hmem), ih (hok.child hmem)⟩

theorem words_pathOf {names : List (List UInt8)} (h : ∀ name ∈ names, Name name) :
    words isSlash (names.flatMap fun name => SLASH :: name) = names := by
  induction names with
  | nil => rfl
  | cons name names ih =>
    rw [List.forall_mem_cons] at h
    have hfree : ∀ c ∈ name, isSlash c = false := fun c hc =>
      decide_eq_false fun heq => h.1.slash (heq ▸ hc)
    rw [List.flatMap_cons, List.cons_append, words_cons_sep (by decide)]
    cases names with
    | nil => rw [List.flatMap_nil, List.append_nil, words_run hfree h.1.ne]
    | cons name' names =>
      have hih := ih h.2
      rw [List.flatMap_cons, List.cons_append, words_cons_sep (by decide)] at hih
      rw [List.flatMap_cons, List.cons_append, words_sep hfree (by decide),
        words_run hfree h.1.ne, hih]
      rfl

theorem pathOf_inj {names names' : List (List UInt8)} (h : ∀ name ∈ names, Name name)
    (h' : ∀ name ∈ names', Name name) (heq : pathOf start names = pathOf start names') :
    names = names' := by
  rw [← words_pathOf h, List.append_cancel_left heq, words_pathOf h']

theorem terminated_iff (hok : (Node.dir slots).Ok) (hstart : start ≠ [])
    (h : namei w start = some (.dir slots, up))
    (hshort : ∀ names node, (Node.dir slots).At names node →
      (pathOf start names).length < MAXPATH) :
    Terminated w free start ↔ ∀ path slots', (Node.dir slots).At path (.dir slots') →
      path.length < free → ∀ name ∈ names slots', name.length < DIRSIZ := by
  constructor
  · intro hterm path slots' hat hlen name hname
    obtain ⟨up', hnamei⟩ := namei_at hat hok hstart h
    have hbelow := hat.isBelow hok hstart h hshort hlen.le
    obtain ⟨k, hk⟩ : ∃ k, free - path.length = k + 1 := ⟨free - path.length - 1, by omega⟩
    rw [hk] at hbelow
    refine hterm k _ slots' hbelow (openPath_eq (hshort path _ hat) hnamei trivial) name ?_
    rw [Visited, (hok path slots' hat).visited]
    exact hname
  · intro hall k p slots' hbelow hopen name hname
    obtain ⟨path, child, hat, rfl, hlen⟩ := hbelow.at hok hstart h
    obtain ⟨up', hnamei⟩ := namei_at hat hok hstart h
    obtain ⟨rfl, -⟩ := opens_of_openPath hnamei hopen
    rw [Visited, (hok path slots' hat).visited] at hname
    exact hall path slots' hat (by omega) name hname

end Tree

theorem basename_name (hname : SLASH ∉ name) : basename (path ++ SLASH :: name) = name := by
  have hreverse : SLASH ∉ name.reverse := by simpa using hname
  have hslash : ∀ c ∈ (SLASH :: path.reverse).head?, c = SLASH := by simp
  have htake := takeWhile_name hreverse hslash
  rw [basename, List.rtakeWhile, List.reverse_append, List.reverse_cons, List.append_assoc,
    List.singleton_append, htake, List.reverse_reverse]

theorem basename_prefix_fmtname (path : List UInt8) : basename path <+: fmtname path := by
  unfold fmtname
  dsimp only
  split
  · exact List.prefix_refl _
  · exact List.prefix_append ..

def Node.IsLeaf : Node → Prop
  | .dir _ => False
  | _ => True

-- The files below the starting directory that are named as the target.
def Match (node : Node) (target : List UInt8) (path : List (List UInt8)) (leaf : Node) : Prop :=
  node.At path leaf ∧ leaf.IsLeaf ∧ path.getLast? = some target

-- All of them are reported exactly if there are descriptors for the directories above
-- them, the devices have drivers, and no name that find() meets fills its field.
theorem reports_all_iff {up : List Node} (hw : w.Ok) (hstart : start ≠ [])
    (h : namei w start = some (.dir slots, up))
    (hshort : ∀ path node, (Node.dir slots).At path node → (pathOf start path).length < MAXPATH)
    (hzero : 0 ∉ target) :
    (∃ out, find w target FREE start = some out ∧
      ∀ path leaf, Match (.dir slots) target path leaf → Out.found (pathOf start path) ∈ out) ↔
      (∀ path slots', (Node.dir slots).At path (.dir slots') → path.length < FREE →
        ∀ name ∈ names slots', name.length < DIRSIZ) ∧
      ∀ path leaf, Match (.dir slots) target path leaf → path.length < FREE ∧ leaf.Opens := by
  have hok : (Node.dir slots).Ok := (namei_ok hw h).1
  rw [← terminated_iff hok hstart h hshort]
  constructor
  · rintro ⟨out, hout, hall⟩
    have hterm := (find_defined target).mp (Option.isSome_iff_exists.mpr ⟨out, hout⟩)
    refine ⟨hterm, fun path leaf hmatch => ?_⟩
    obtain ⟨k, hbelow, hleaf, -⟩ := (found_mem hzero hterm hout).mp (hall path leaf hmatch)
    obtain ⟨path', child, hat, heq, hlen⟩ := hbelow.at hok hstart h
    have hpath := pathOf_inj (hmatch.1.isName hok) (hat.isName hok) heq
    obtain ⟨up', hnamei⟩ := namei_at hmatch.1 hok hstart h
    refine ⟨by rw [hpath]; omega, ?_⟩
    rcases hleaf with hleaf | ⟨major, hleaf⟩ <;> exact (opens_of_openPath hnamei hleaf).2
  · rintro ⟨hterm, hmatches⟩
    obtain ⟨out, hout⟩ := Option.isSome_iff_exists.mp ((find_defined target).mpr hterm)
    refine ⟨out, hout, fun path leaf hmatch => ?_⟩
    obtain ⟨hlen, hopens⟩ := hmatches path leaf hmatch
    obtain ⟨hat, hleaf, hlast⟩ := hmatch
    obtain ⟨up', hnamei⟩ := namei_at hat hok hstart h
    have hopen := openPath_eq (hshort path leaf hat) hnamei hopens
    have hbelow := hat.isBelow hok hstart h hshort hlen.le
    obtain ⟨k, hk⟩ : ∃ k, FREE - path.length = k + 1 := ⟨FREE - path.length - 1, by omega⟩
    rw [hk] at hbelow
    refine (found_mem hzero hterm hout).mpr ⟨k, hbelow, ?_, ?_⟩
    · cases leaf with
      | file => exact .inl hopen
      | device major => exact .inr ⟨major, hopen⟩
      | dir slots => exact hleaf.elim
    · obtain ⟨init, rfl⟩ := List.getLast?_eq_some_iff.mp hlast
      have htarget := (hat.isName hok target (by simp)).slash
      have hbase : basename (pathOf start (init ++ [target])) = target := by
        rw [show pathOf start (init ++ [target]) = pathOf start init ++ SLASH :: target by
          simp [pathOf], basename_name htarget]
      rw [← hbase]
      nth_rewrite 2 [hbase]
      exact basename_prefix_fmtname _

theorem at_fileWorld {path : List (List UInt8)} {node : Node}
    (h : (fileWorld name).cwd.At path node) : path = [] ∨ path = [name] ∧ node = .file := by
  cases h with
  | here => exact .inl rfl
  | entry hmem h =>
    cases List.mem_singleton.mp hmem
    cases h
    exact .inr ⟨rfl, rfl⟩

-- find . foo
theorem reports_all_foo : Match (fileWorld [102, 111, 111]).cwd [102, 111, 111] [[102, 111, 111]] .file ∧
    [[102, 111, 111]].length < FREE := by
  have hfind : find (fileWorld [102, 111, 111]) [102, 111, 111] FREE [46] =
      some [.found [46, 47, 102, 111, 111]] := by decide
  have hw : (fileWorld [102, 111, 111]).Ok := fileWorld_ok ⟨by decide, by decide, by decide⟩
  have hmatch : Match (fileWorld [102, 111, 111]).cwd [102, 111, 111] [[102, 111, 111]] .file :=
    ⟨.entry (List.mem_singleton.mpr rfl) (.here _), trivial, rfl⟩
  refine ⟨hmatch, (((reports_all_iff hw (by decide) (by rfl) (fun path node hat => ?_)
    (by decide)).mp ⟨_, hfind, fun path leaf hm => ?_⟩).2 _ _ hmatch).1⟩
  · rcases at_fileWorld hat with rfl | ⟨rfl, -⟩ <;> decide
  · rcases at_fileWorld hm.1 with rfl | ⟨rfl, -⟩
    · exact absurd hm.2.2 (by decide)
    · decide

-- Directories in each other, and a file in the last one.
def deep : Nat → Node
  | 0 => .dir [some ([102], .file)]
  | n + 1 => .dir [some ([100], deep n)]

theorem deep_match (n : Nat) : Match (deep n) [102] (List.replicate n [100] ++ [[102]]) .file := by
  refine ⟨?_, trivial, List.getLast?_concat ..⟩
  induction n with
  | zero => exact .entry (List.mem_singleton.mpr rfl) (.here _)
  | succ n ih => exact .entry (List.mem_singleton.mpr rfl) ih

-- find . f does not find the file below twelve directories.
theorem deep_not_found :
    Match (deep 12) [102] (List.replicate 12 [100] ++ [[102]]) .file ∧
    (pathOf [46] (List.replicate 12 [100] ++ [[102]])).length < MAXPATH ∧
    find ⟨deep 12, []⟩ [102] FREE [46] =
      some [.failed (pathOf [46] (List.replicate 12 [100] ++ [[102]]))] :=
  ⟨deep_match 12, by decide, by decide⟩

end Xv6.Find
