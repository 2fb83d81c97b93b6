import Rastapopoulos.Vmm.Fork

/-!
# The kernel's half of directories

Each directory has its own copy of the entries of the kernel's half, and a page table that is added
goes to the current one only. `task_switch` copies the entries to the directory that it loads. So
the current directory has every entry that any directory has (`Latest`), and entries do not change:
what has once been present is there in every directory that is loaded afterwards
(`kernel_entry_kept`).
-/

namespace Rastapopoulos.Vmm

open Paging
open KernelHeap (pageSize)

variable {s s₀ s₁ s₂ s' : System} {a : Action} {d : ℕ} {i : Fin 1024} {e : BitVec 32}

/-- The current directory has the entries of all directories. -/
def Latest (s : System) : Prop :=
  ∀ d ∈ s.dirs, ∀ i, KernelIndex i → Present (s.mem d i) → s.mem d i = s.mem s.cr3 i

theorem Boot.latest (h : Boot s) : Latest s := by
  intro d hd i _ _
  have hdirs : s.dirs = [s.cr3] := by
    rw [System.dirs, System.tasks, h.others, h.exited, List.append_nil, List.map_singleton, h.cr3]
  rw [hdirs, List.mem_singleton] at hd
  rw [hd]

/-- A step adds entries to the current directory only, or copies them from there. -/
theorem Latest.of_shares (h : Latest s) (hs : Shares s.dirs s.toMachine s'.dirs s'.toMachine) :
    Latest s' := by
  intro d hd i hi hpresent
  rcases hs.dirs d hd i hi hpresent with hcopied | ⟨hd', hsame⟩
  · exact hcopied
  · rw [hsame] at hpresent ⊢
    have hlatest := h d hd' i hi hpresent
    rw [hlatest] at hpresent ⊢
    exact (hs.kept i hi hpresent).symm

theorem latest_of_reach (hboot : Boot s₀) (hreach : Reach step Fits s₀ s) :
    SystemInv s ∧ Latest s := by
  refine hreach.invariant (P := fun s => SystemInv s ∧ Latest s) ⟨hboot.systemInv, hboot.latest⟩ ?_
  rintro s a s' ⟨hinv, hlatest⟩ hfits hstep
  obtain ⟨hinv', hshares⟩ := hinv.step hfits hstep
  exact ⟨hinv', hlatest.of_shares hshares⟩

/-- An entry of the current directory stays as it is, whichever directory is the current one. -/
theorem SystemInv.entry_kept (h : SystemInv s) (hreach : Reach Vmm.step Fits s s') (hi : KernelIndex i)
    (hpresent : Present (s.mem s.cr3 i)) : s'.mem s'.cr3 i = s.mem s.cr3 i := by
  refine (hreach.invariant (P := fun s' => SystemInv s' ∧ s'.mem s'.cr3 i = s.mem s.cr3 i)
    ⟨h, rfl⟩ ?_).2
  rintro s₁ a s₂ ⟨h₁, hsame⟩ hfits hstep
  obtain ⟨h₂, hshares⟩ := h₁.step hfits hstep
  refine ⟨h₂, ?_⟩
  rw [hshares.kept i hi (hsame ▸ hpresent), hsame]

/-- **Kernel mappings never go stale**: an entry that was present in any directory is in the current
one ever after. -/
theorem kernel_entry_kept (hboot : Boot s₀) (h₁ : Reach step Fits s₀ s₁) (hd : d ∈ s₁.dirs)
    (hi : KernelIndex i) (hpresent : Present (s₁.mem d i)) (h₂ : Reach step Fits s₁ s₂) :
    s₂.mem s₂.cr3 i = s₁.mem d i := by
  obtain ⟨hinv, hlatest⟩ := latest_of_reach hboot h₁
  have hsame := hlatest d hd i hi hpresent
  rw [hsame] at hpresent ⊢
  exact hinv.entry_kept h₂ hi hpresent

/-- A task is created after boot, and switched to. -/
theorem bootSystem_entry_kept : ∃ s₁ s₂, step bootSystem (.fork [⟨[], 0⟩, heapAnswer]) = .ok s₁ ∧
    step s₁ (.switch 0) = .ok s₂ ∧ s₂.cr3 ≠ bootSystem.cr3 ∧
      s₂.mem s₂.cr3 768 = bootSystem.mem bootSystem.cr3 768 := by
  obtain ⟨role, h₀⟩ := bootSystem_boot.systemInv.tasks
  obtain ⟨k', hclone⟩ := bootSystem_clone
  obtain ⟨d, role', hphysical, hd, -, hcloned, h', -⟩ := (h₀.answers _).vmmClonePagedir hclone
  have hfork : step bootSystem (.fork [⟨[], 0⟩, heapAnswer]) =
      .ok { bootSystem with toKernel := k', others := [⟨0xC0107000, d⟩] } := by
    have hkmalloc : kmalloc { bootSystem.toKernel with answers := [⟨[], 0⟩, heapAnswer] } =
        .ok ({ bootSystem.toKernel with answers := [heapAnswer] }, 0) := rfl
    have hcreate : taskCreate { bootSystem.toKernel with answers := [⟨[], 0⟩, heapAnswer] } =
        .ok (k', ⟨0xC0107000, d⟩) := by
      rw [taskCreate, hkmalloc, ok_bind]
      simp only
      rw [hclone, ok_bind, hphysical]
      rfl
    rw [step, hcreate]
    rfl
  obtain ⟨m, hswitch⟩ := h'.inv.taskSwitch_of_self h'.cur (.head _)
    (.head _) hcloned.self
  obtain ⟨-, hm⟩ := h'.taskSwitch (.head _) hswitch
  have hnext : step { bootSystem with toKernel := k', others := [⟨0xC0107000, d⟩] } (.switch 0) =
      .ok { bootSystem with
        toKernel := k'.set m
        current := ⟨0xC0107000, d⟩
        others := [bootSystem.current] } := by
    rw [step, switchTo]
    simp only [List.getElem?_cons_zero]
    rw [hswitch]
    rfl
  refine ⟨_, _, hfork, hnext, ?_, ?_⟩
  · show m.cr3 ≠ bootSystem.cr3
    rw [hm]
    rintro (rfl : d = bootSystem.cr3)
    exact hd (List.mem_singleton_self _)
  · have hpresent : Present (bootSystem.mem bootSystem.cr3 768) := by decide
    have hfits : Fits bootSystem (.fork [⟨[], 0⟩, heapAnswer]) := trivial
    have hfits' : Fits { bootSystem with toKernel := k', others := [⟨0xC0107000, d⟩] } (.switch 0) :=
      trivial
    exact kernel_entry_kept bootSystem_boot .refl (List.mem_singleton_self _) (by decide) hpresent
      (.tail (.tail .refl hfits hfork) hfits' hnext)

end Rastapopoulos.Vmm
