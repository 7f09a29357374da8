import Xv6.Fs.Atomic

namespace Xv6.Fs

open Lib

variable {sb : Superblock} {exact : Prop} {M : Mode} {s : Sys} {hist : List (Label × Sys)} {p : Nat}

-- The runs from an image whose blocks are in order, whatever its links are.
def Mode.accounting (sb : Superblock) (exact : Prop) (start : Sys) : Mode where
  sb := sb
  p := 0
  exact := exact
  holeFree := True
  linked := False
  durable := False
  writes := True
  roomy := False
  keep := fun _ => False
  watch := fun _ => False
  snap := start
  linked_of_durable := id

theorem settled_accounting {img : Image} (himg : Blocks sb exact img.dinode [] (boot img))
    (h : Serial (Calls sb) (boot img) hist s) : Settled (.accounting sb exact (boot img)) s :=
  (Settled.serial (M := .accounting sb exact (boot img)) h (fun _ _ _ hq => hq)
    (settled_boot img (fun hl => hl.elim) (fun _ => himg) fun _ _ hk => hk.elim)
    id trivial (fun _ hk => hk) fun _ _ _ _ _ hr => hr.elim).1

-- What the actions of a call find, and how it may panic.
section Call

variable (h : Settled M s) (hdurable : ¬ M.durable) (hwrites : M.writes) (hkeep : ∀ n, ¬ M.keep n)
  (hroomy : ¬ M.roomy) (hlive : (s.proc p).cwd ≠ none) (call : Syscall)

include h hdurable hwrites hkeep hroomy hlive

theorem Settled.must : ∀ e ∈ (syscall M.sb p call).trace s, Must M e.1 e.2 :=
  (h.call hlive call (fun _ => hwrites) (fun _ => hkeep) fun hr => absurd hr hroomy).must
    fun _ _ => ⟨fun hd => absurd hd hdurable, fun _ _ => hkeep _⟩

theorem Settled.panics {msg : String} (hrun : (syscall M.sb p call).run s = .panic msg) :
    M.spec.panics msg :=
  (h.call hlive call (fun _ => hwrites) (fun _ => hkeep) fun hr => absurd hr hroomy).panic
    (fun _ _ => ⟨fun hd => absurd hd hdurable, fun _ _ => hkeep _⟩) hrun

end Call

-- Between calls the blocks that are marked used are those of the metadata and those
-- that an inode has, each one for itself. No call frees a block that is free, and
-- balloc() finds blocks that no inode has.
theorem blocks_accounted {img : Image} (himg : Blocks sb True img.dinode [] (boot img))
    (h : Serial (Calls sb) (boot img) hist s) :
    (∀ b, b < sb.size →
      (s.bitmap b = true ↔ b < sb.nmeta ∨ ∃ o, Owns s.data s.dinode o b)) ∧
    (∀ o o' b, Owns s.data s.dinode o b → Owns s.data s.dinode o' b → o = o') ∧
    ∀ p call, (s.proc p).cwd ≠ none →
      (syscall sb p call).run s ≠ .panic "freeing free block" ∧
      ∀ e ∈ (syscall sb p call).trace s, ∀ c b, e.1 = .balloc c → e.2.freeBit sb c = some b →
        Spare e.2 b := by
  have hs := settled_accounting himg h
  have halloc := (hs.inv.disk trivial).blocks.alloc
  refine ⟨fun b hb => ⟨fun hused => ?_, ?_⟩, halloc.inj, fun p call hlive => ⟨fun hrun => ?_, ?_⟩⟩
  · exact (halloc.all trivial b hb hused).imp_right fun hor =>
      hor.resolve_left List.not_mem_nil
  · rintro (hlow | ⟨o, ho⟩)
    · exact halloc.low b hlow
    · exact (halloc.owned o b ho).2.2
  · exact ((hs.panics id trivial (fun _ => id) id hlive call hrun).2.1 trivial).2 rfl
  · intro e he c b hlbl hfree
    exact (hs.must id trivial (fun _ => id) id hlive call e he).balloc c b hlbl trivial hfree

theorem blocks_emptyImage : Blocks Mkfs.sb True emptyImage.dinode [] (boot emptyImage) := by
  obtain ⟨m, m', himg, hfinal⟩ := final_emptyImage
  rw [himg]
  exact hfinal.holeFree (by decide) (by decide)

theorem blocks_accounted_mkdir : ∃ hist s, Serial (Calls Mkfs.sb) (boot emptyImage) hist s ∧
    (s.bitmap (Mkfs.nmeta + 1) = true ∧ ∃ o, Owns s.data s.dinode o (Mkfs.nmeta + 1)) := by
  have hrun : (session Mkfs.sb [(0, .mkdir (some [100]))] (boot emptyImage)).any
      (fun r => r.2.bitmap (Mkfs.nmeta + 1)) = true := by decide +kernel
  obtain ⟨hist, s, hs, hused⟩ := exists_serial hrun
  refine ⟨hist, s, hs, hused, ?_⟩
  exact (((blocks_accounted blocks_emptyImage hs).1 _ (by decide)).mp hused).resolve_left (by decide)

end Xv6.Fs
