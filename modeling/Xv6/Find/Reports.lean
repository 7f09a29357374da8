import Xv6.Find
import Mathlib.Data.List.Nodup

namespace Xv6.Find

open Fs

variable {w : World} {target path p name : List UInt8} {free k : Nat}
  {slots : List (Option (List UInt8 × Node))} {out : List Out}

-- The entries that find() goes to.
def visited (des : List (Option (List UInt8))) : List (List UInt8) :=
  (des.filterMap id).filter fun name => decide (¬ (name = DOTDOT ∨ name = DOT))

def Visited (slots : List (Option (List UInt8 × Node))) (name : List UInt8) : Prop :=
  name ∈ visited (dirents slots)

-- While find(path) runs, which has free descriptors before it, find(p) is called
-- with k of them.
inductive Below (w : World) : Nat → List UInt8 → Nat → List UInt8 → Prop
  | here (free : Nat) (path : List UInt8) : Below w free path free path
  | entry {free k : Nat} {path p name : List UInt8} {slots : List (Option (List UInt8 × Node))}
      (hopen : openPath w path = some (.dir slots)) (hname : Visited slots name)
      (hbelow : Below w free (path ++ SLASH :: name) k p) : Below w (free + 1) path k p

-- A path that leads to a file or a device that can be opened.
def Leaf (w : World) (path : List UInt8) : Prop :=
  openPath w path = some .file ∨ ∃ major, openPath w path = some (.device major)

-- All the names that find() meets are shorter than their field.
def Terminated (w : World) (free : Nat) (path : List UInt8) : Prop :=
  ∀ k p slots, Below w free path (k + 1) p → openPath w p = some (.dir slots) →
    ∀ name, Visited slots name → name.length < DIRSIZ

theorem memcmp_iff : ∀ (s t : List UInt8), 0 ∉ t →
    (memcmp t.length (s ++ [0]) (t ++ [0]) = true ↔ t <+: s) := by
  intro s t
  induction t generalizing s with
  | nil => simp [memcmp]
  | cons b t ih =>
    intro hzero
    rw [List.mem_cons, not_or] at hzero
    cases s with
    | nil => simp [memcmp, hzero.1]
    | cons a s =>
      have hih := ih s hzero.2
      simp only [List.length_cons, List.cons_append, memcmp, Bool.and_eq_true, beq_iff_eq, hih,
        List.cons_prefix_cons]
      exact and_congr_left fun _ => eq_comm

theorem visited_dot (h : name = DOTDOT ∨ name = DOT) (des : List (Option (List UInt8))) :
    visited (some name :: des) = visited des :=
  List.filter_cons_of_neg fun hd => of_decide_eq_true hd h

theorem visited_cons (h : ¬ (name = DOTDOT ∨ name = DOT)) (des : List (Option (List UInt8))) :
    visited (some name :: des) = name :: visited des :=
  List.filter_cons_of_pos (by simpa using h)

theorem findLoop_eq_some {visit : List UInt8 → Option (List Out)}
    {des : List (Option (List UInt8))} : findLoop visit des = some out ↔
      (∀ name ∈ visited des, name.length < DIRSIZ ∧ (visit name).isSome = true) ∧
        out = (visited des).flatMap fun name => (visit name).getD [] := by
  induction des generalizing out with
  | nil =>
    rw [findLoop, Option.some.injEq]
    refine ⟨fun h => ⟨(fun _ hmem => by cases hmem), h.symm⟩, fun h => h.2.symm⟩
  | cons de des ih =>
    cases de with
    | none => exact ih
    | some name =>
      rw [findLoop]
      by_cases hdot : name = DOTDOT ∨ name = DOT
      · rw [if_pos hdot, visited_dot hdot]
        exact ih
      · rw [if_neg hdot, visited_cons hdot, List.forall_mem_cons, List.flatMap_cons]
        by_cases hlen : DIRSIZ ≤ name.length
        · rw [if_pos hlen]
          refine ⟨(fun h => by cases h), fun h => ?_⟩
          exact absurd h.1.1.1 (not_lt.mpr hlen)
        · rw [if_neg hlen]
          constructor
          · intro h
            split at h
            · rename_i o more ho hmore
              cases h
              obtain ⟨hall, rfl⟩ := ih.mp hmore
              exact ⟨⟨⟨not_le.mp hlen, by rw [ho]; rfl⟩, hall⟩, by rw [ho]; rfl⟩
            · cases h
          · rintro ⟨⟨⟨-, hsome⟩, hall⟩, rfl⟩
            obtain ⟨o, ho⟩ := Option.isSome_iff_exists.mp hsome
            rw [ho, ih.mpr ⟨hall, rfl⟩]
            rfl

theorem openPath_dir_or_leaf (w : World) (path : List UInt8) :
    openPath w path = none ∨ (∃ slots, openPath w path = some (.dir slots)) ∨ Leaf w path := by
  unfold Leaf
  cases openPath w path with
  | none => exact .inl rfl
  | some node =>
    cases node with
    | file => exact .inr (.inr (.inl rfl))
    | device major => exact .inr (.inr (.inr ⟨major, rfl⟩))
    | dir slots => exact .inr (.inl ⟨slots, rfl⟩)

theorem find_none (h : openPath w path = none) :
    find w target (free + 1) path = some [.failed path] := by
  rw [find, h]

theorem find_dir (h : openPath w path = some (.dir slots)) :
    find w target (free + 1) path =
      findLoop (fun name => find w target free (path ++ SLASH :: name)) (dirents slots) := by
  rw [find, h]

theorem find_leaf (h : Leaf w path) : find w target (free + 1) path =
    some (if memcmp target.length (fmtname path ++ [0]) (target ++ [0]) then [.found path]
      else []) := by
  rcases h with h | ⟨major, h⟩ <;> rw [find, h]

theorem Leaf.not_dir (h : Leaf w path) (slots : List (Option (List UInt8 × Node))) :
    openPath w path ≠ some (.dir slots) := by
  rcases h with h | ⟨major, h⟩ <;> rw [h] <;> intro heq <;> cases heq

theorem Below.eq_of_not_dir (h : Below w (free + 1) path k p)
    (hdir : ∀ slots, openPath w path ≠ some (.dir slots)) : k = free + 1 ∧ p = path := by
  cases h with
  | here => exact ⟨rfl, rfl⟩
  | entry hopen _ _ => exact absurd hopen (hdir _)

theorem Terminated.entry (h : Terminated w (free + 1) path)
    (hopen : openPath w path = some (.dir slots)) (hname : Visited slots name) :
    name.length < DIRSIZ ∧ Terminated w free (path ++ SLASH :: name) :=
  ⟨h free path slots (.here _ _) hopen name hname,
    fun k p slots' hbelow => h k p slots' (.entry hopen hname hbelow)⟩

-- find() never looks past the end of a name exactly if all that it meets are
-- terminated.
theorem find_defined (target : List UInt8) :
    (find w target free path).isSome = true ↔ Terminated w free path := by
  induction free generalizing path with
  | zero =>
    refine ⟨fun _ k p slots h => ?_, fun _ => rfl⟩
    cases h
  | succ free ih =>
    rcases openPath_dir_or_leaf w path with hnone | ⟨slots, hopen⟩ | hleaf
    · rw [find_none hnone]
      refine ⟨fun _ k p slots hbelow hp => ?_, fun _ => rfl⟩
      have hdir : ∀ slots, openPath w path ≠ some (.dir slots) := fun _ h => by
        rw [hnone] at h
        cases h
      rw [(hbelow.eq_of_not_dir hdir).2, hnone] at hp
      cases hp
    · rw [find_dir hopen, Option.isSome_iff_exists]
      constructor
      · rintro ⟨out, hout⟩ k p slots' hbelow hp name hname
        obtain ⟨hall, -⟩ := findLoop_eq_some.mp hout
        cases hbelow with
        | here =>
          rw [hopen] at hp
          cases hp
          exact (hall name hname).1
        | entry hopen' hname' hrest =>
          rw [hopen] at hopen'
          cases hopen'
          exact ih.mp (hall _ hname').2 k p slots' hrest hp name hname
      · intro h
        exact ⟨_, findLoop_eq_some.mpr
          ⟨fun name hname => ⟨(h.entry hopen hname).1, ih.mpr (h.entry hopen hname).2⟩, rfl⟩⟩
    · rw [find_leaf hleaf]
      refine ⟨fun _ k p slots hbelow hp => ?_, fun _ => rfl⟩
      rw [(hbelow.eq_of_not_dir hleaf.not_dir).2] at hp
      exact absurd hp (hleaf.not_dir slots)

-- What is reported are the files that find() comes to and whose padded names begin
-- with the target.
theorem found_mem (hzero : 0 ∉ target) (hterm : Terminated w free path)
    (h : find w target free path = some out) :
    Out.found p ∈ out ↔ ∃ k, Below w free path (k + 1) p ∧ Leaf w p ∧ target <+: fmtname p := by
  induction free generalizing path out with
  | zero =>
    cases h
    refine ⟨fun hmem => ?_, ?_⟩
    · cases List.mem_singleton.mp hmem
    · rintro ⟨k, hbelow, -⟩
      cases hbelow
  | succ free ih =>
    rcases openPath_dir_or_leaf w path with hnone | ⟨slots, hopen⟩ | hleaf
    · rw [find_none hnone] at h
      cases h
      refine ⟨fun hmem => ?_, ?_⟩
      · cases List.mem_singleton.mp hmem
      · rintro ⟨k, hbelow, hleaf, -⟩
        have hdir : ∀ slots, openPath w path ≠ some (.dir slots) := fun _ h => by
          rw [hnone] at h
          cases h
        rw [(hbelow.eq_of_not_dir hdir).2, Leaf, hnone] at hleaf
        rcases hleaf with hleaf | ⟨major, hleaf⟩ <;> cases hleaf
    · rw [find_dir hopen] at h
      obtain ⟨-, rfl⟩ := findLoop_eq_some.mp h
      rw [List.mem_flatMap]
      constructor
      · rintro ⟨name, hname, hmem⟩
        have hterm' := (hterm.entry hopen hname).2
        obtain ⟨o, ho⟩ := Option.isSome_iff_exists.mp ((find_defined target).mpr hterm')
        rw [ho] at hmem
        obtain ⟨k, hbelow, hrest⟩ := (ih hterm' ho).mp hmem
        exact ⟨k, .entry hopen hname hbelow, hrest⟩
      · rintro ⟨k, hbelow, hrest⟩
        cases hbelow with
        | here => exact absurd hopen (hrest.1.not_dir slots)
        | entry hopen' hname hbelow =>
          rw [hopen] at hopen'
          cases hopen'
          have hterm' := (hterm.entry hopen hname).2
          obtain ⟨o, ho⟩ := Option.isSome_iff_exists.mp ((find_defined target).mpr hterm')
          refine ⟨_, hname, ?_⟩
          rw [ho]
          exact (ih hterm' ho).mpr ⟨k, hbelow, hrest⟩
    · rw [find_leaf hleaf] at h
      cases h
      have hcmp := memcmp_iff (fmtname path) target hzero
      constructor
      · intro hmem
        split at hmem
        · rename_i heq
          cases List.mem_singleton.mp hmem
          exact ⟨free, .here _ _, hleaf, hcmp.mp heq⟩
        · cases hmem
      · rintro ⟨k, hbelow, -, hbegins⟩
        obtain ⟨-, rfl⟩ := hbelow.eq_of_not_dir hleaf.not_dir
        rw [if_pos (hcmp.mpr hbegins)]
        exact List.mem_singleton.mpr rfl

-- The node that the names lead to.
inductive Node.At : Node → List (List UInt8) → Node → Prop
  | here (node : Node) : At node [] node
  | entry {slots : List (Option (List UInt8 × Node))} {name : List UInt8} {child node : Node}
      {names : List (List UInt8)} (hmem : some (name, child) ∈ slots) (h : At child names node) :
      At (.dir slots) (name :: names) node

def names (slots : List (Option (List UInt8 × Node))) : List (List UInt8) :=
  slots.filterMap fun e => e.map Prod.fst

-- The names of the entries are those that the kernel writes.
structure Slots (slots : List (Option (List UInt8 × Node))) : Prop where
  nodup : (names slots).Nodup
  named : ∀ name ∈ names slots, name ≠ [] ∧ name.length ≤ DIRSIZ ∧ SLASH ∉ name
  dots : ∀ name ∈ names slots, name ≠ DOT ∧ name ≠ DOTDOT

def Node.Ok (node : Node) : Prop := ∀ names slots, node.At names (.dir slots) → Slots slots

structure World.Ok (w : World) : Prop where
  cwd : w.cwd.Ok
  up : ∀ d ∈ w.up, d.Ok

theorem mem_names {child : Node} (h : some (name, child) ∈ slots) : name ∈ names slots :=
  List.mem_filterMap.mpr ⟨_, h, rfl⟩

theorem exists_of_mem_names (h : name ∈ names slots) : ∃ child, some (name, child) ∈ slots := by
  obtain ⟨e, he, hname⟩ := List.mem_filterMap.mp h
  obtain ⟨⟨n, child⟩, rfl, rfl⟩ := Option.map_eq_some_iff.mp hname
  exact ⟨child, he⟩

theorem visited_dirents (slots : List (Option (List UInt8 × Node))) :
    visited (dirents slots) =
      (names slots).filter fun name => decide (¬ (name = DOTDOT ∨ name = DOT)) := by
  rw [dirents, visited_dot (.inr rfl), visited_dot (.inl rfl), visited, List.filterMap_map]
  rfl

theorem Slots.visited (h : Slots slots) : visited (dirents slots) = names slots := by
  rw [visited_dirents]
  refine List.filter_eq_self.mpr fun name hname => decide_eq_true ?_
  exact not_or.mpr ⟨(h.dots name hname).2, (h.dots name hname).1⟩

theorem Node.Ok.child {child : Node} (h : (Node.dir slots).Ok) (hmem : some (name, child) ∈ slots) :
    child.Ok :=
  fun names slots' hat => h (name :: names) slots' (.entry hmem hat)

theorem mem_of_lookup {child : Node} (h : lookup name slots = some child) :
    ∃ n, some (n, child) ∈ slots := by
  obtain ⟨e, he, hbind⟩ := List.exists_of_findSome?_eq_some h
  obtain ⟨⟨n, c⟩, rfl, hif⟩ := Option.bind_eq_some_iff.mp hbind
  split at hif
  · cases hif
    exact ⟨n, he⟩
  · cases hif

-- A directory and those above it.
def Pos.Ok (pos : Node × List Node) : Prop := pos.1.Ok ∧ ∀ d ∈ pos.2, d.Ok

theorem descend_ok {pos pos' : Node × List Node} (hpos : Pos.Ok pos)
    (h : descend name pos = some pos') : Pos.Ok pos' := by
  obtain ⟨node, up⟩ := pos
  cases node with
  | file => cases h
  | device major => cases h
  | dir slots =>
    rw [descend] at h
    split at h
    · cases h
      exact hpos
    · split at h
      · cases h
        cases up with
        | nil => exact hpos
        | cons d up =>
          exact ⟨hpos.2 d (List.mem_cons_self ..), fun e he => hpos.2 e (List.mem_cons_of_mem _ he)⟩
      · obtain ⟨child, hchild, rfl⟩ := Option.map_eq_some_iff.mp h
        obtain ⟨n, hmem⟩ := mem_of_lookup hchild
        refine ⟨hpos.1.child hmem, fun d hd => ?_⟩
        rcases List.mem_cons.mp hd with rfl | hd
        · exact hpos.1
        · exact hpos.2 d hd

theorem World.Ok.root (hw : w.Ok) : w.root.Ok := by
  unfold World.root
  cases hup : w.up.getLast? with
  | none =>
    rw [List.getLastD_eq_getLast?, hup]
    exact hw.cwd
  | some d =>
    rw [List.getLastD_eq_getLast?, hup]
    exact hw.up d (List.mem_of_getLast? hup)

theorem namei_ok {pos : Node × List Node} (hw : w.Ok) (h : namei w path = some pos) : Pos.Ok pos := by
  have hfold : ∀ (l : List (List UInt8)) (pos pos' : Node × List Node), Pos.Ok pos →
      l.foldlM (fun pos name => descend name pos) pos = some pos' → Pos.Ok pos' := by
    intro l
    induction l with
    | nil =>
      rintro pos pos' hpos heq
      cases heq
      exact hpos
    | cons name l ih =>
      rintro pos pos' hpos heq
      rw [List.foldlM_cons] at heq
      obtain ⟨mid, hmid, hrest⟩ := Option.bind_eq_some_iff.mp heq
      exact ih mid pos' (descend_ok hpos hmid) hrest
  refine hfold _ _ _ ?_ h
  split
  · exact ⟨hw.root, fun _ hd => by cases hd⟩
  · exact ⟨hw.cwd, hw.up⟩

theorem openPath_ok (hw : w.Ok) (h : openPath w path = some (.dir slots)) : Slots slots := by
  unfold openPath at h
  split at h
  · cases h
  · split at h
    · split at h <;> cases h
    · rename_i node up _ hnamei
      cases h
      exact (namei_ok hw hnamei).1 [] slots (.here _)
    · cases h

def Out.report : Out → Option (List UInt8)
  | .found path => some path
  | .failed _ => none

def founds (out : List Out) : List (List UInt8) := out.filterMap Out.report

theorem mem_founds : p ∈ founds out ↔ Out.found p ∈ out := by
  rw [founds, List.mem_filterMap]
  constructor
  · rintro ⟨x, hx, heq⟩
    cases x with
    | found path =>
      cases heq
      exact hx
    | failed path => cases heq
  · exact fun h => ⟨_, h, rfl⟩

theorem Below.extends (h : Below w free path k p) :
    ∃ s, p = path ++ s ∧ ∀ c ∈ s.head?, c = SLASH := by
  induction h with
  | here free path => exact ⟨[], by simp, by simp⟩
  | @entry free k path p name slots _ _ _ ih =>
    obtain ⟨s, rfl, -⟩ := ih
    exact ⟨SLASH :: (name ++ s), by simp, by simp⟩

theorem takeWhile_name {s : List UInt8} (hname : SLASH ∉ name) (hs : ∀ c ∈ s.head?, c = SLASH) :
    (name ++ s).takeWhile (fun c => decide (c ≠ SLASH)) = name := by
  have hall : ∀ c ∈ name, decide (c ≠ SLASH) = true := fun c hc =>
    decide_eq_true fun heq => hname (heq ▸ hc)
  rw [List.takeWhile_append_of_pos hall]
  cases s with
  | nil => simp
  | cons c s => simp [hs c rfl]

theorem Below.name_eq {name' : List UInt8} {free' k' : Nat} (hname : SLASH ∉ name)
    (hname' : SLASH ∉ name') (h : Below w free (path ++ SLASH :: name) k p)
    (h' : Below w free' (path ++ SLASH :: name') k' p) : name = name' := by
  obtain ⟨s, rfl, hs⟩ := h.extends
  obtain ⟨s', heq, hs'⟩ := h'.extends
  rw [List.append_assoc, List.append_assoc] at heq
  have heq := List.append_cancel_left heq
  rw [List.cons_append, List.cons_append] at heq
  injection heq with _ heq
  rw [← takeWhile_name hname hs, heq, takeWhile_name hname' hs']

theorem founds_nodup (hw : w.Ok) (hzero : 0 ∉ target) (hterm : Terminated w free path)
    (h : find w target free path = some out) : (founds out).Nodup := by
  induction free generalizing path out with
  | zero =>
    cases h
    exact List.nodup_nil
  | succ free ih =>
    rcases openPath_dir_or_leaf w path with hnone | ⟨slots, hopen⟩ | hleaf
    · rw [find_none hnone] at h
      cases h
      exact List.nodup_nil
    · rw [find_dir hopen] at h
      obtain ⟨-, rfl⟩ := findLoop_eq_some.mp h
      have hslots := openPath_ok hw hopen
      rw [founds, List.filterMap_flatMap, List.nodup_flatMap]
      have hsome : ∀ name ∈ visited (dirents slots), ∃ o,
          find w target free (path ++ SLASH :: name) = some o := fun name hname =>
        Option.isSome_iff_exists.mp ((find_defined target).mpr (hterm.entry hopen hname).2)
      refine ⟨fun name hname => ?_, ?_⟩
      · obtain ⟨o, ho⟩ := hsome name hname
        rw [ho]
        exact ih (hterm.entry hopen hname).2 ho
      · rw [hslots.visited] at hsome ⊢
        refine hslots.nodup.imp_of_mem fun {a b} ha hb hne => ?_
        obtain ⟨o, ho⟩ := hsome a ha
        obtain ⟨o', ho'⟩ := hsome b hb
        show List.Disjoint (founds ((find w target free (path ++ SLASH :: a)).getD []))
          (founds ((find w target free (path ++ SLASH :: b)).getD []))
        rw [ho, ho']
        intro p hp hp'
        have hvis : ∀ n ∈ names slots, Visited slots n := fun n hn => by
          rw [Visited, hslots.visited]
          exact hn
        obtain ⟨k, hbelow, -⟩ := (found_mem hzero (hterm.entry hopen (hvis a ha)).2 ho).mp
          (mem_founds.mp hp)
        obtain ⟨k', hbelow', -⟩ := (found_mem hzero (hterm.entry hopen (hvis b hb)).2 ho').mp
          (mem_founds.mp hp')
        exact hne (hbelow.name_eq (hslots.named a ha).2.2 (hslots.named b hb).2.2 hbelow')
    · rw [find_leaf hleaf] at h
      cases h
      split
      · exact List.nodup_singleton path
      · exact List.nodup_nil

-- Only files that are named as the target are reported exactly if no other file that
-- find() comes to has a name that begins with the target once it is padded, and no
-- name fills its field.
theorem reports_matches_iff (hw : w.Ok) (start : List UInt8) (hzero : 0 ∉ target) :
    (∃ out, find w target FREE start = some out ∧
      (∀ p, Out.found p ∈ out → Leaf w p ∧ basename p = target) ∧ (founds out).Nodup) ↔
      Terminated w FREE start ∧ ∀ k p, Below w FREE start (k + 1) p → Leaf w p →
        target <+: fmtname p → basename p = target := by
  constructor
  · rintro ⟨out, hout, hfound, -⟩
    have hterm := (find_defined target).mp (Option.isSome_iff_exists.mpr ⟨out, hout⟩)
    refine ⟨hterm, fun k p hbelow hleaf hbegins => ?_⟩
    exact (hfound p ((found_mem hzero hterm hout).mpr ⟨k, hbelow, hleaf, hbegins⟩)).2
  · rintro ⟨hterm, hnames⟩
    obtain ⟨out, hout⟩ := Option.isSome_iff_exists.mp ((find_defined target).mpr hterm)
    refine ⟨out, hout, fun p hp => ?_, founds_nodup hw hzero hterm hout⟩
    obtain ⟨k, hbelow, hleaf, hbegins⟩ := (found_mem hzero hterm hout).mp hp
    exact ⟨hleaf, hnames k p hbelow hleaf hbegins⟩

-- One file, in the current directory.
def fileWorld (name : List UInt8) : World := ⟨.dir [some (name, .file)], []⟩

theorem fileWorld_ok (hslots : Slots [some (name, .file)]) : (fileWorld name).Ok := by
  refine ⟨fun names slots h => ?_, fun _ hd => by cases hd⟩
  cases h with
  | here => exact hslots
  | entry hmem h =>
    cases List.mem_singleton.mp hmem
    cases h

-- find . foo
theorem reports_matches_foo : Terminated (fileWorld [102, 111, 111]) FREE [46] := by
  have hfind : find (fileWorld [102, 111, 111]) [102, 111, 111] FREE [46] =
      some [.found [46, 47, 102, 111, 111]] := by decide
  have hw : (fileWorld [102, 111, 111]).Ok := fileWorld_ok ⟨by decide, by decide, by decide⟩
  refine ((reports_matches_iff hw [46] (by decide)).mp ⟨_, hfind, fun p hp => ?_, by decide⟩).1
  cases List.mem_singleton.mp hp
  exact ⟨.inl (by rfl), by decide⟩

-- find . foo also reports a file of the name foobar.
theorem reports_foobar : Slots [some ([102, 111, 111, 98, 97, 114], .file)] ∧
    find (fileWorld [102, 111, 111, 98, 97, 114]) [102, 111, 111] FREE [46] =
      some [.found [46, 47, 102, 111, 111, 98, 97, 114]] ∧
    basename [46, 47, 102, 111, 111, 98, 97, 114] ≠ [102, 111, 111] :=
  ⟨⟨by decide, by decide, by decide⟩, by decide, by decide⟩

end Xv6.Find
