import IonaOs.Process.CloneCow

/-!
# A fork that runs out of frames
-/

namespace IonaOs.Process

open Lib Memory FrameAllocator

namespace Kernel

structure Unchanged (l4 : ℕ) (k k' : Kernel) : Prop where
  tables : ∀ level f, IsTable k.mem l4 level f → k'.mem f = k.mem f
  refs : ∀ f, k'.frames.refs f = k.frames.refs f
  free : ∀ f, k'.frames.Free f ↔ k.frames.Free f

structure Shrinks (k k' : Kernel) : Prop where
  valid : k'.frames.Valid
  free : ∀ {f}, k'.frames.Free f → k.frames.Free f

namespace Shrinks

variable {k₀ k : Kernel} {strict : Bool}

theorem refl (h : k.frames.Valid) : Shrinks k k := ⟨h, id⟩

section

variable (h : Shrinks k₀ k)
include h

theorem congr {k' : Kernel} (hframes : k'.frames = k.frames) : Shrinks k₀ k' :=
  ⟨hframes ▸ h.valid, fun hf => h.free (hframes ▸ hf)⟩

theorem share (e : Entry) : Shrinks k₀ (k.share strict e) := by
  unfold Kernel.share
  split
  · exact h
  · exact ⟨h.valid.incRef, fun hf => h.free ((free_incRef _ _ _).mp hf)⟩

theorem allocateTable : Shrinks k₀ k.allocateTable.2 := by
  have hframes : k.allocateTable.2.frames = k.frames.allocateOne.2 := by
    unfold Kernel.allocateTable
    split
    all_goals rename_i heq; rw [heq]
  refine ⟨hframes ▸ h.valid.allocateOne, fun hf => ?_⟩
  rw [hframes, free_allocateOne h.valid] at hf
  exact h.free hf.1

theorem cloneL1 (p c : ℕ) : Shrinks k₀ (Kernel.cloneL1 strict p c k).2 := by
  refine tryExec_invariant h ?_
  intro k i _ hk
  unfold cloneL1Entry
  dsimp only
  split
  · exact hk
  · refine share ?_ _
    exact hk.congr rfl

omit h in
theorem cloneEntry {huge : Entry → Bool}
    {cloneBelow : ℕ → ℕ → Kernel → Except AddressSpaceError Unit × Kernel}
    (hbelow : ∀ ⦃p c k⦄, Shrinks k₀ k → Shrinks k₀ (cloneBelow p c k).2) (p c : ℕ)
    (h : Shrinks k₀ k) (i : Fin 512) :
    Shrinks k₀ (Kernel.cloneEntry strict huge cloneBelow p c k i).2 := by
  have hnew := h.allocateTable
  unfold Kernel.cloneEntry
  dsimp only
  split
  · exact h
  split
  · refine share ?_ _
    exact h.congr rfl
  split
  · rename_i heq
    rwa [heq] at hnew
  rename_i table k₁ heq
  rw [heq] at hnew
  have hcloned := hbelow (p := (k.mem p i).frame) (c := table) hnew
  split
  · rename_i heq
    rwa [heq] at hcloned
  · rename_i heq
    rw [heq] at hcloned
    exact hcloned.congr rfl

theorem cloneL2 (p c : ℕ) : Shrinks k₀ (Kernel.cloneL2 strict p c k).2 :=
  tryExec_invariant h fun _ i _ hk => hk.cloneEntry (fun p c _ h => h.cloneL1 p c) p c i

theorem cloneL3 (p c : ℕ) : Shrinks k₀ (Kernel.cloneL3 strict p c k).2 :=
  tryExec_invariant h fun _ i _ hk => hk.cloneEntry (fun p c _ h => h.cloneL2 p c) p c i

theorem cloneL4 (p c : ℕ) : Shrinks k₀ (Kernel.cloneL4 strict p c k).2 :=
  tryExec_invariant h fun _ i _ hk => hk.cloneEntry (fun p c _ h => h.cloneL3 p c) p c i

end

end Shrinks

variable {k : Kernel} {space : AddressSpace} {strict : Bool}

theorem not_free_cloneCow (hvalid : k.frames.Valid) {new : ℕ} {k₁ : Kernel}
    (hnew : k.allocateTable = (.ok new, k₁)) :
    k.frames.Free new ∧ ¬ (k.cloneCow strict space).2.frames.Free new := by
  have hshrinks : Shrinks k₁ (k.cloneCow strict space).2 := by
    have hvalid₁ : Shrinks k k₁ := by
      have h := (Shrinks.refl hvalid).allocateTable
      rwa [hnew] at h
    have hcopied : Shrinks k₁ (k₁.copyKernelHalf space.l4 new) :=
      (Shrinks.refl hvalid₁.valid).congr rfl
    have hcloned : Shrinks k₁ (cloneL4 strict space.l4 new (k₁.copyKernelHalf space.l4 new)).2 :=
      hcopied.cloneL4 space.l4 new
    unfold cloneCow
    rw [hnew]
    dsimp only
    split
    all_goals rename_i heq; rwa [heq] at hcloned
  have hframes : k.frames.allocateOne.1 = .ok new ∧ k₁.frames = k.frames.allocateOne.2 := by
    unfold allocateTable at hnew
    split at hnew
    · cases hnew
    · rename_i heq
      cases hnew
      exact ⟨by rw [heq], by rw [heq]⟩
  refine ⟨free_of_allocateOne hvalid hframes.1, fun hf => ?_⟩
  have hf₁ := hshrinks.free hf
  rw [hframes.2, free_allocateOne hvalid] at hf₁
  exact hf₁.2 hframes.1

/-- **A failed fork.**  It leaves the tables of the parent, the reference counts and the free frames
as they were exactly if there was no free frame to begin with. -/
theorem cloneCow_unchanged_iff (hvalid : k.frames.Valid) (err : AddressSpaceError) :
    (k.cloneCow strict space).1 = .error err →
      (Unchanged space.l4 k (k.cloneCow strict space).2 ↔ ∀ f, ¬ k.frames.Free f) := by
  intro _
  rcases allocateOne_cases hvalid with ⟨hnone, hfull⟩ | ⟨f, hfree, hsome⟩
  · have hsame : (k.cloneCow strict space).2 = k := by
      simp [cloneCow, allocateTable, hnone]
    rw [hsame]
    exact ⟨fun _ => hfull, fun _ => ⟨fun _ _ _ => rfl, fun _ => rfl, fun _ => Iff.rfl⟩⟩
  · refine ⟨fun h => ?_, fun h => absurd hfree (h f)⟩
    have hnew : k.allocateTable = (.ok f, k.allocateTable.2) := by
      simp only [allocateTable, hsome]
    have hlost : ¬ (k.cloneCow strict space).2.frames.Free f := (not_free_cloneCow hvalid hnew).2
    exact absurd ((h.free f).mpr hfree) hlost

/-- The tree at the frames 300 to 303, where the first table has a second entry, and `frames` free
frames.  The page of 4 KiB is the frame 304, which has one holder. -/
def twoBranches (frames : UInt64) : Kernel where
  managers := fun _ => none
  frames := ((FrameAllocator.init ⟨⟨512, false⟩, .withMaxFrames 512, false, {}, 0, 0⟩
    [⟨0, frames * 0x1000, .usable⟩]).markHeapReady.incRef 304).2
  mem := (oneBranch true).write 300 1 0x131007 |>.write 303 0 0x130007
  l4 := 300

/-- No frame is free, and nothing changes. -/
theorem cloneCow_unchanged_full : ∃ k, k = twoBranches 0 ∧
    (k.cloneCow true (branchSpace 300 4)).1 = .error .outOfMemory ∧
    Unchanged 300 k (k.cloneCow true (branchSpace 300 4)).2 := by
  have herr : ((twoBranches 0).cloneCow true (branchSpace 300 4)).1 = .error .outOfMemory := by
    decide +kernel
  refine ⟨_, rfl, herr, (cloneCow_unchanged_iff
    (valid_init _ rfl).markHeapReady.incRef _ herr).mpr ?_⟩
  rintro f ⟨-, hlt⟩
  have htotal : (twoBranches 0).frames.bitmap.totalFrames = 0 := by decide +kernel
  omega

/-- With four free frames the first branch is cloned before the fork fails.  The parent can no
longer write to its page, which has a second reference, and the four frames are lost. -/
theorem failed_fork_leaves_traces : ∃ k k', k = twoBranches 4 ∧
    k' = (k.cloneCow true (branchSpace 300 4)).2 ∧
    (k.cloneCow true (branchSpace 300 4)).1 = .error .outOfMemory ∧
    walkPageTables k.mem 300 0 = .ok (0x130007, 1) ∧
    walkPageTables k'.mem 300 0 = .ok (0x130005, 1) ∧
    k.frames.refs 304 = 1 ∧ k'.frames.refs 304 = 2 ∧
    (∀ f < 4, k.frames.bitmap.isFree f = true) ∧
    ∀ f < 4, k'.frames.bitmap.isFree f = false := by
  refine ⟨_, _, rfl, rfl, ?_⟩
  decide +kernel

end Kernel

end IonaOs.Process
