import HorizonOs.Keybuild.CpioInserts
import HorizonOs.Keybuild.FatInserts

/-!
# The two tree builders

The runs of the FAT tree and of the archive's tree in which nothing is lost.
-/

namespace HorizonOs.Keybuild

open HorizonOs.Lib.PathFrame HorizonOs.Lib.Runs

set_option autoImplicit false

/-- In either builder every call of a run keeps the rest of the tree exactly when each call
meets its condition in the tree it finds, and then nothing that was inserted is lost. -/
theorem tree_builders_keep_iff (esp : List Fat.Insert) (initramfs : List Cpio.Insert) :
    ((Guarded Fat.Insert.step Fat.Insert.Keeps .nil esp ↔
        Guarded Fat.Insert.step Fat.Insert.Safe .nil esp) ∧
      (Guarded Fat.Insert.step Fat.Insert.Safe .nil esp →
        Lasting Fat.Insert.step Fat.Dir.view Fat.Insert.target .nil esp)) ∧
    ((Guarded Cpio.Insert.step Cpio.Insert.Keeps .nil initramfs ↔
        Guarded Cpio.Insert.step Cpio.Insert.Safe .nil initramfs) ∧
      (Guarded Cpio.Insert.step Cpio.Insert.Safe .nil initramfs →
        Lasting Cpio.Insert.step Cpio.Dir.view Cpio.Insert.target .nil initramfs)) := by
  refine ⟨⟨Fat.fat_inserts_keep_iff esp, ?_⟩, Cpio.cpio_inserts_keep_iff initramfs, ?_⟩
  · intro safe
    exact lasting_of_kept _ _ _ Fat.Insert.Keeps
      (fun _ _ keeps path item => Fat.keeps_survives keeps path item) _ esp
      ((Fat.fat_inserts_keep_iff esp).mpr safe)
  · intro safe
    exact lasting_of_kept _ _ _ Cpio.Insert.Keeps
      (fun _ _ keeps path item => Cpio.keeps_survives keeps path item) _ initramfs
      ((Cpio.cpio_inserts_keep_iff initramfs).mpr safe)

/-- A file over a directory, in both builders, and a bad name behind a new directory. -/
theorem tree_builders_lose :
    ¬Guarded Fat.Insert.step Fat.Insert.Keeps .nil [.file "A/B" [1], .file "A" [2]] ∧
    ¬Guarded Fat.Insert.step Fat.Insert.Keeps .nil [.file "A/B?" [1]] ∧
    ¬Guarded Cpio.Insert.step Cpio.Insert.Keeps .nil [.file "a/b" [1] 0, .file "a" [2] 0] := by
  refine ⟨?_, ?_, ?_⟩
  · intro kept
    have safe := ((Fat.fat_inserts_keep_iff _).mp kept).2.1
    change true = true → Fat.Dir.cons "B" "B" (.file [1]) .nil = .nil at safe
    cases safe rfl
  · intro kept
    have safe := ((Fat.fat_inserts_keep_iff _).mp kept).1
    change ∀ later ∈ ["B?"], Fat.validateName later at safe
    exact absurd (safe "B?" List.mem_cons_self) (by decide)
  · intro kept
    have safe := ((Cpio.cpio_inserts_keep_iff _).mp kept).2.1
    have empty := safe (by decide) 0o755 (.cons "b" (.file 0 [1]) .nil) rfl
    cases empty

end HorizonOs.Keybuild
