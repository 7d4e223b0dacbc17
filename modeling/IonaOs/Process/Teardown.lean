import IonaOs.Process.CloneBooks
import IonaOs.Process.SpaceTrees

/-!
# The end of address spaces
-/

namespace IonaOs.Process

open Lib Memory List

namespace SpaceRun

def frames (s : SpaceRun) : List ℕ :=
  s.live.flatMap fun space => spaceFrames s.kernel.mem space.l4

/-- All references are accounted for.  `free₀` are the frames that were free before there were any
spaces, and `others` the references that there were then. -/
structure Balanced (free₀ : ℕ → Prop) (others : ℕ → ℕ) (s : SpaceRun) : Prop where
  counted : ∀ f, s.kernel.frames.refs f = others f + s.frames.count f
  inUse : ∀ f ∈ s.frames, ¬ s.kernel.frames.Free f
  returned : ∀ f, free₀ f → f ∉ s.frames → s.kernel.frames.Free f

def Clean (strict : Bool) (s : SpaceRun) : SpaceCall → Prop
  | .clone j => ∀ space, s.live[j]? = some space →
      (∃ child k, s.kernel.cloneCow strict space = (.ok child, k)) ∨ ∀ f, ¬ s.kernel.frames.Free f
  | .drop j => ∀ space, s.cleaned[j]? = some space → s.kernel.frames.refs space.l4 = 0
  | _ => True

def roots (s : SpaceRun) : List ℕ := s.live.map AddressSpace.l4

def Kept (free₀ : ℕ → Prop) (others : ℕ → ℕ) (s : SpaceRun) : Prop :=
  ∃ T, Books free₀ others s.roots T [] s.kernel

variable {free₀ : ℕ → Prop} {others : ℕ → ℕ} {s : SpaceRun} {strict : Bool} {j : ℕ}
variable {space : AddressSpace} {k : Kernel}

theorem frames_eq (s : SpaceRun) : s.frames = s.roots.flatMap (spaceFrames s.kernel.mem) := by
  rw [frames, roots, flatMap_map]

theorem kept_start (h : k.frames.Sound) : Kept k.frames.Free k.frames.refs (start k) :=
  ⟨⟨∅, fun _ => 0, fun _ => 0⟩,
    { sound := h
      returned := fun _ hf => ⟨hf.inRange, fun _ => hf⟩
      counted := fun f => by simp [roots, start, Tables.refers]
      single := by simp
      fresh := by simp
      small := by simp
      levels := by simp
      unused := by simp
      plain := by simp
      bottom := by simp
      down := by simp
      root := by simp [roots, start]
      top := by simp
      owned := by simp }⟩

theorem Kept.balanced (h : Kept free₀ others s) (hothers : ∀ f, free₀ f → others f = 0) :
    Balanced free₀ others s := by
  obtain ⟨T, hbooks⟩ := h
  have hcounted : ∀ f, s.kernel.frames.refs f = others f + s.frames.count f := by
    rw [frames_eq]
    exact hbooks.counted_frames
  refine ⟨hcounted, fun f hf hfree => ?_, fun f hf hnot => ?_⟩
  · have hzero := hbooks.sound.free f hfree
    have hpos := count_pos_iff.mpr hf
    rw [hcounted] at hzero
    omega
  · refine (hbooks.returned f hf).2 ?_
    rw [hcounted, hothers f hf, count_eq_zero.mpr hnot]

/-! ## Calls -/

section

variable (h : s.live[j]? = some space)
include h

theorem mem_roots : space.l4 ∈ s.roots := mem_map_of_mem (mem_of_getElem? h)

theorem roots_set {space' : AddressSpace} (hl4 : space'.l4 = space.l4) :
    (s.live.set j space').map AddressSpace.l4 = s.roots := by
  obtain ⟨hj, rfl⟩ := List.getElem?_eq_some_iff.mp h
  have hj' : j < (s.live.map AddressSpace.l4).length := by rwa [length_map]
  have hself := set_getElem_self hj'
  rw [getElem_map] at hself
  rw [map_set, hl4, hself, roots]

end

theorem Kept.onLive {call : AddressSpace → SpaceRun} (h : Kept free₀ others s)
    (hcall : ∀ space T, s.live[j]? = some space → Books free₀ others s.roots T [] s.kernel →
      space.l4 ∈ T.set → T.level space.l4 = 4 → Kept free₀ others (call space)) :
    Kept free₀ others (s.onLive j call) := by
  rw [SpaceRun.onLive]
  split
  · exact h
  obtain ⟨T, hbooks⟩ := h
  obtain ⟨hmem, hfour⟩ := hbooks.root _ (mem_roots ‹_›)
  exact hcall _ T ‹_› hbooks hmem hfour

theorem Kept.enlist {r : Except AddressSpaceError AddressSpace} {T : Tables}
    (h : Books free₀ others (space.l4 :: s.roots) T [] k) (hr : r = .ok space) :
    Kept free₀ others (s.enlist (r, k)) := by
  subst hr
  refine ⟨T, h.perm ?_⟩
  simp only [roots, SpaceRun.enlist, map_append, map_cons, map_nil]
  exact (perm_append_singleton space.l4 s.roots).symm

theorem Kept.settle {T : Tables} {r : Except SpaceError AddressSpace × Kernel}
    (hj : s.live[j]? = some space) (h : Books free₀ others s.roots T [] r.2)
    (hl4 : ∀ space', r.1 = .ok space' → space'.l4 = space.l4) :
    Kept free₀ others (s.settle j r) := by
  refine ⟨T, ?_⟩
  rcases r with ⟨_ | space', k⟩
  · exact h
  · rw [roots, SpaceRun.settle, roots_set hj (hl4 space' rfl)]
    exact h

theorem Kept.map (h : Kept free₀ others s) (virt : UserAddr) (flags : PageFlags) :
    Kept free₀ others (s.step strict (.map j virt flags)) := by
  refine h.onLive fun space T hj hbooks hmem hfour => ?_
  rcases hbooks.sound.allocateOne_cases with ⟨hnone, -⟩ | ⟨f, a, hok, -⟩
  · rw [hnone]
    exact ⟨T, hbooks⟩
  rw [hok]
  obtain ⟨hpending, hnot, hothers, hsmall⟩ := hbooks.allocateOne hok
  rcases hpending.mapPage hnot hothers hsmall hmem hfour virt.2 flags with
    ⟨err, k', T', hmap, hnot', hbooks'⟩ | ⟨space', k', T', hmap, hl4, hbooks'⟩
  · simp only [hmap]
    exact ⟨T', hbooks'.giveBack hnot'⟩
  simp only [hmap]
  refine ⟨T', ?_⟩
  rw [roots, roots_set hj hl4]
  exact hbooks'

theorem l4_unmapSpacePage {virt : UInt64} {space' : AddressSpace}
    (h : (k.unmapSpacePage strict space virt).1 = .ok space') : space'.l4 = space.l4 := by
  rw [Kernel.unmapSpacePage] at h
  split at h
  · cases h
  split at h
  · cases h
  split at h
  · cases h
  · cases h
    rfl

theorem l4_unmapRange {range : UserRange} {space' : AddressSpace}
    (h : (k.unmapRange strict space range).1 = .ok space') : space'.l4 = space.l4 := by
  rw [Kernel.unmapRange] at h
  split at h
  · cases h
  split at h
  · cases h
  · cases h
    rfl

section

variable (h : Kept free₀ others s)
include h

theorem Kept.cleanup : Kept free₀ others (s.step strict (.cleanup j)) := by
  refine h.onLive fun space T hj hbooks _ _ => ?_
  obtain ⟨hlt, rfl⟩ := List.getElem?_eq_some_iff.mp hj
  have hgone := (hbooks.perm ((getElem_cons_eraseIdx_perm hlt).map _).symm).cleanup
  rw [← hbooks.cleanup_eq strict (mem_roots hj)] at hgone
  exact ⟨_, hgone⟩

theorem Kept.drop
    (hclean : ∀ space, s.cleaned[j]? = some space → s.kernel.frames.refs space.l4 = 0) :
    Kept free₀ others (s.step strict (.drop j)) := by
  obtain ⟨T, hbooks⟩ := h
  rw [step]
  split
  · exact ⟨T, hbooks⟩
  rename_i space hj
  refine ⟨T, hbooks.recount rfl (hbooks.sound.freeFrame _)
    (hbooks.returned.freeFrame hbooks.sound _) fun f => ?_⟩
  rw [Kernel.decRef, hbooks.sound.refs_freeFrame]
  split_ifs with hf
  · rw [hf, hclean space hj]
  · rfl

theorem Kept.clone
    (hclean : s.Clean strict (.clone j)) : Kept free₀ others (s.step strict (.clone j)) := by
  refine h.onLive fun space T hj hbooks _ _ => ?_
  rcases hbooks.cloneCow_cases strict (mem_roots hj) with
    ⟨child, k', T', heq, hbooks'⟩ | ⟨⟨err, heq⟩, -⟩ | ⟨err, k', T', lost, heq, ⟨f, hf⟩, -⟩
  · rw [heq]
    exact Kept.enlist hbooks' rfl
  · rw [heq]
    exact ⟨T, hbooks⟩
  · rcases hclean space hj with ⟨child, k'', hok⟩ | hfull
    · cases heq.symm.trans hok
    · exact absurd hf (hfull f)

theorem Kept.step (call : SpaceCall) (hclean : s.Clean strict call) :
    Kept free₀ others (s.step strict call) := by
  cases call with
  | create cfg random =>
    obtain ⟨T, hbooks⟩ := h
    rw [SpaceRun.step]
    rcases hbooks.newSpace cfg random with ⟨err, heq⟩ | ⟨space, k', T', heq, hbooks'⟩
    · rw [heq]
      exact ⟨T, hbooks⟩
    · rw [heq]
      exact Kept.enlist hbooks' rfl
  | map j virt flags => exact h.map virt flags
  | clone => exact h.clone hclean
  | unmap j virt =>
    refine h.onLive fun space T hj hbooks hmem hfour => ?_
    exact Kept.settle hj (hbooks.unmapSpacePage hmem hfour virt.2) fun _ => l4_unmapSpacePage
  | unmapRange j range =>
    refine h.onLive fun space T hj hbooks hmem hfour => ?_
    exact Kept.settle hj (hbooks.unmapRange hmem hfour range) fun _ => l4_unmapRange
  | cleanup => exact h.cleanup
  | drop => exact h.drop hclean

theorem Kept.clean_of_balanced (hothers : ∀ f, free₀ f → others f = 0)
    {call : SpaceCall} (hafter : (s.step strict call).Balanced free₀ others) :
    s.Clean strict call := by
  have hbefore := h.balanced hothers
  obtain ⟨T, hbooks⟩ := h
  cases call with
  | clone j =>
    intro space hj
    rcases hbooks.cloneCow_cases strict (mem_roots hj) with
      ⟨child, k', T', heq, -⟩ | ⟨-, hfull⟩ | ⟨err, k', T', lost, heq, -, ⟨t, hlost, ht⟩, hbooks'⟩
    · exact .inl ⟨child, k', heq⟩
    · exact .inr hfull
    -- the first table of the child has a reference that no space holds
    have hstep : s.step strict (.clone j) = { s with kernel := k' } := by
      simp only [SpaceRun.step, SpaceRun.onLive, hj, heq, SpaceRun.enlist]
    rw [hstep] at hafter
    have hcount : k'.frames.refs t =
        others t + (s.roots.flatMap (spaceFrames k'.mem)).count t := by
      have hcounted := hafter.counted t
      rwa [frames_eq] at hcounted
    have hfresh : others t = 0 := hbooks'.fresh t ht
    rw [hbooks'.single t ht, hfresh, count_eq_zero.mpr (hbooks'.notMem_frames ht hlost)] at hcount
    cases hcount
  | drop j =>
    intro space hj
    by_contra hne
    have hstep : s.step strict (.drop j) =
        ⟨s.kernel.decRef space.l4, s.live, s.cleaned.eraseIdx j⟩ := by
      simp only [SpaceRun.step, hj]
    rw [hstep] at hafter
    have hcount : (s.kernel.decRef space.l4).frames.refs space.l4 =
        others space.l4 + s.frames.count space.l4 := hafter.counted space.l4
    rw [Kernel.decRef, hbooks.sound.refs_freeFrame, if_pos rfl, ← hbefore.counted] at hcount
    omega
  | create | map | unmap | unmapRange | cleanup => trivial

end

/-! ## Runs -/

/-- **The references of all spaces balance**, at every point of a run, exactly if no clone runs out
of frames on the way and no space is dropped when its first table has been allocated again. -/
theorem balanced_iff (strict : Bool) (k : Kernel) (hk : k.frames.Sound) (calls : List SpaceCall) :
    (∀ past rest, calls = past ++ rest →
        Balanced k.frames.Free k.frames.refs (exec (step strict) (start k) past)) ↔
      Along (step strict) (Clean strict) (start k) calls := by
  have hothers : ∀ f, k.frames.Free f → k.frames.refs f = 0 := hk.free
  have hstart := kept_start hk
  rw [forall_split_iff_along, and_iff_right (hstart.balanced hothers)]
  refine along_congr (fun s call h hafter => ?_) (fun s call h => ⟨?_, fun hclean => ?_⟩) hstart
  · exact h.step call (h.clean_of_balanced hothers hafter)
  · exact h.clean_of_balanced hothers
  · exact (h.step call hclean).balanced hothers

def sampleKernel : Kernel where
  managers := fun _ => none
  frames := (FrameAllocator.init ⟨⟨512, false⟩, .withMaxFrames 512, false, {}, 0, 0⟩
    [⟨0, 0x10000, .usable⟩]).markHeapReady
  mem := fun _ _ => 0
  l4 := 300

theorem sound_sampleKernel : sampleKernel.frames.Sound :=
  (FrameAllocator.valid_init _ rfl).sound_markHeapReady

def sampleFlags : PageFlags := ⟨0x7, by decide, by decide, by decide⟩

theorem clean_clone (h : s.live[j]?.all
    (fun space => (s.kernel.cloneCow strict space).1.isOk) = true) : s.Clean strict (.clone j) := by
  intro space hj
  rw [hj, Option.all_some] at h
  rcases heq : s.kernel.cloneCow strict space with ⟨_ | child, k⟩
  · rw [heq] at h
    cases h
  · exact .inl ⟨child, k, rfl⟩

theorem Kept.clean_drop (h : Kept free₀ others s) (hothers : ∀ f, others f = 0)
    (hlive : s.live = []) (strict : Bool) (j : ℕ) : s.Clean strict (.drop j) := by
  intro space _
  rw [(h.balanced fun f _ => hothers f).counted, hothers, frames, hlive]
  rfl

theorem live_drop : (s.step strict (.drop j)).live = s.live := by
  rw [step]
  split
  · rfl
  · rfl

def sampleCalls : List SpaceCall :=
  [.create {} 0, .map 0 ⟨0x400000, by decide⟩ sampleFlags, .clone 0, .cleanup 0, .cleanup 0]

theorem clean_sampleCalls : Along (step true) (Clean true) (start sampleKernel) sampleCalls :=
  ⟨trivial, trivial, clean_clone (by decide +kernel), trivial, trivial, trivial⟩

theorem live_sampleCalls : (exec (step true) (start sampleKernel) sampleCalls).live = [] := by
  decide +kernel

/-- Then both spaces are dropped. -/
theorem balanced_sample : ∃ calls : List SpaceCall, calls = sampleCalls ++ [.drop 0, .drop 0] ∧
    ∀ past rest, calls = past ++ rest → Balanced sampleKernel.frames.Free sampleKernel.frames.refs
      (exec (step true) (start sampleKernel) past) := by
  have hothers : ∀ f, sampleKernel.frames.refs f = 0 := FrameAllocator.refs_markHeapReady _
  have hkept : Kept sampleKernel.frames.Free sampleKernel.frames.refs
      (exec (step true) (start sampleKernel) sampleCalls) :=
    clean_sampleCalls.invariant (kept_start sound_sampleKernel) fun _ call h => h.step call
  have hfirst := hkept.clean_drop hothers live_sampleCalls true 0
  have hsecond := (hkept.step (.drop 0) hfirst).clean_drop hothers
    (live_drop.trans live_sampleCalls) true 0
  exact ⟨_, rfl, (balanced_iff true sampleKernel sound_sampleKernel _).mpr
    (along_append.mpr ⟨clean_sampleCalls, hfirst, hsecond, trivial⟩)⟩

/-- **A first table that is dropped twice.**  A space is cleaned up, and the next one gets the frame
of its first table.  When the first space is dropped, the frame is free, with the second space in
use. -/
theorem surviving_table_freed : ∃ s, s = exec (step true) (start sampleKernel)
      [.create {} 0, .cleanup 0, .create {} 0, .drop 0] ∧
    s.live.map AddressSpace.l4 = [0] ∧ s.kernel.frames.Free 0 ∧
    ¬ s.Balanced sampleKernel.frames.Free sampleKernel.frames.refs := by
  have hfree : (exec (step true) (start sampleKernel)
      [.create {} 0, .cleanup 0, .create {} 0, .drop 0]).kernel.frames.Free 0 :=
    ⟨by decide +kernel, by decide +kernel⟩
  exact ⟨_, rfl, by decide +kernel, hfree, fun h => h.inUse 0 (by decide +kernel) hfree⟩

end SpaceRun

end IonaOs.Process
