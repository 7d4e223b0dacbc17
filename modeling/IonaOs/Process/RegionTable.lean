import IonaOs.Process.Mmap

/-!
# The region table of a process
-/

namespace IonaOs.Process

open Lib Memory MmapManager

def userEnd : ℕ := 2 ^ 47

/-- The `length` bytes at an address are a region of the process, aligned, within user space, and
apart from its other regions. -/
def Recorded (k : Kernel) (tid : TaskId) (addr length : UInt64) : Prop :=
  ∃ manager before region after, k.managers tid = some manager ∧
    manager.regions = before ++ region :: after ∧ region.start = addr ∧ region.length = length ∧
    addr.toNat % 4096 = 0 ∧ addr.toNat + length.toNat ≤ userEnd ∧
    ∀ r ∈ before ++ after, ∀ x, region.contains x → ¬ r.contains x

namespace MmapCall

/-- If the call is an `mmap` that succeeds, the range is recorded. -/
def Records (tid : TaskId) (k : Kernel) : MmapCall → Prop
  | .mmap addr length prot flags fd offset path files =>
    ∀ vaddr, (k.mmap tid addr length prot flags fd offset path files).1 = some (.ok vaddr) →
      Recorded (k.mmap tid addr length prot flags fd offset path files).2 tid vaddr
        (pageAlignUp length)
  | _ => True

/-- The call is an `mmap` whose arguments pass the checks. -/
def Accepted : MmapCall → Prop
  | .mmap addr length _ flags fd offset path _ =>
    (∃ backing, mmapBacking length flags fd offset path = .ok backing) ∧
      (flags &&& mapFixed ≠ 0 → addr ≠ 0)
  | _ => False

end MmapCall

namespace Kernel

variable {k : Kernel} {tid : TaskId}

def boot (frames : FrameAllocator) (mem : PhysMem) (l4 : ℕ) : Kernel :=
  ⟨fun _ => none, frames, mem, l4⟩

def Fresh (tid : TaskId) (k : Kernel) : Prop :=
  ∀ manager, k.managers tid = some manager → manager = {}

section

variable (h : k.Fresh tid)
include h

theorem Fresh.cases : k.managers tid = none ∨ k.managers tid = some {} := by
  cases hm : k.managers tid with
  | none => exact .inl rfl
  | some manager => exact .inr (congrArg some (h manager hm))

theorem Fresh.getManagerMut :
    (k.getManagerMut tid).1 = {} ∧ (k.getManagerMut tid).2.managers tid = some {} := by
  rcases h.cases with hm | hm
  · simp [Kernel.getManagerMut, hm, setManager]
  · simp [Kernel.getManagerMut, hm]

theorem Fresh.mmap (addr length : UInt64) (prot flags : UInt32) (fd : Int64) (offset : UInt64)
    (path : Option String) (files : String → List UInt8) :
    Fresh tid (k.mmap tid addr length prot flags fd offset path files).2 := by
  rcases k.mmap_snd tid addr length prot flags fd offset path files with heq | heq
  · rwa [heq]
  · intro manager hm
    rw [heq, h.getManagerMut.2] at hm
    exact (Option.some.inj hm).symm

theorem Fresh.step (call : MmapCall) : Fresh tid (k.step tid call) := by
  cases call with
  | mmap addr length prot flags fd offset path files =>
    exact h.mmap addr length prot flags fd offset path files
  | munmap addr length =>
    have hsame : (k.munmap tid addr length).2 = k := by
      rcases h.cases with hm | hm
      · simp only [munmap, hm]
        split_ifs <;> rfl
      · simp only [munmap, hm, cut]
        split_ifs <;> rfl
    rwa [Kernel.step, hsame]
  | mprotect addr length prot =>
    have hsame : (k.mprotect tid addr length prot).2 = k := by
      rcases h.cases with hm | hm
      · simp only [mprotect, hm]
        split_ifs <;> rfl
      · simp only [mprotect, hm, cut]
        split_ifs <;> rfl
    rwa [Kernel.step, hsame]
  | fault virt write files =>
    have hsame : (k.handleMmapFault tid virt write files).2 = k := by
      rcases h.cases with hm | hm
      · simp only [handleMmapFault, hm]
      · rw [handleMmapFault_of_outside hm (by simp)]
    rwa [Kernel.step, hsame]
  | cleanup =>
    rcases h.cases with hm | hm
    · simpa only [Kernel.step, cleanupFor, hm] using h
    · intro manager hm'
      simp [Kernel.step, cleanupFor, hm] at hm'

end

def firstAddress (addr : UInt64) (fixed : Bool) : UInt64 :=
  if fixed then addr
  else if addr ≠ 0 ∧ mmapBaseAddr ≤ addr &&& ~~~4095 then addr &&& ~~~4095
  else mmapBaseAddr

theorem findFreeAddress_new (length addr : UInt64) (fixed : Bool) (h : fixed = true → addr ≠ 0) :
    ∃ m : MmapManager, m.regions = [] ∧
      findFreeAddress {} length addr fixed =
        some (.ok (firstAddress addr fixed, m)) := by
  cases fixed with
  | true => exact ⟨{}, rfl, by simp [findFreeAddress, firstAddress, h]⟩
  | false =>
    refine ⟨{ nextAddr := firstAddress addr false + length }, rfl, ?_⟩
    simp [findFreeAddress, searchLoop, firstAddress]

theorem Fresh.mmap_of_accepted (h : k.Fresh tid) {addr length : UInt64} {prot flags : UInt32}
    {fd : Int64} {offset : UInt64} {path : Option String} {files : String → List UInt8}
    (hcall : MmapCall.Accepted (.mmap addr length prot flags fd offset path files)) :
    (k.mmap tid addr length prot flags fd offset path files).1 =
      some (.ok (firstAddress addr (flags &&& mapFixed ≠ 0))) := by
  obtain ⟨⟨backing, hb⟩, hfixed⟩ := hcall
  obtain ⟨m, hregions, hfind⟩ := findFreeAddress_new (pageAlignUp length) addr
    (flags &&& mapFixed ≠ 0) (by simpa using hfixed)
  have hroom : ¬ maxMmapRegions ≤ 0 := by decide
  simp only [Kernel.mmap, hb, h.getManagerMut.1, hfind, addRegion, hregions,
    List.length_nil, hroom, if_false]
  split_ifs <;> rfl

theorem mmap_ne_ok_of_not_accepted (k : Kernel) (tid : TaskId) {addr length : UInt64}
    {prot flags : UInt32} {fd : Int64} {offset : UInt64} {path : Option String}
    {files : String → List UInt8}
    (hcall : ¬ MmapCall.Accepted (.mmap addr length prot flags fd offset path files))
    (vaddr : UInt64) :
    (k.mmap tid addr length prot flags fd offset path files).1 ≠ some (.ok vaddr) := by
  cases hb : mmapBacking length flags fd offset path with
  | error => simp [Kernel.mmap, hb]
  | ok =>
    -- What is left is `MAP_FIXED` at the address zero.
    have hzero : flags &&& mapFixed ≠ 0 ∧ addr = 0 := by
      simpa [MmapCall.Accepted, hb] using hcall
    simp [Kernel.mmap, hb, findFreeAddress, hzero]

theorem Fresh.records_iff (h : k.Fresh tid) (call : MmapCall) :
    call.Records tid k ↔ ¬ call.Accepted := by
  cases call with
  | mmap addr length prot flags fd offset path files =>
    constructor
    · intro hrec haccept
      obtain ⟨manager, _, _, _, hm, hregions, -⟩ := hrec _ (h.mmap_of_accepted haccept)
      rw [h.mmap addr length prot flags fd offset path files manager hm] at hregions
      simp at hregions
    · intro hreject vaddr hok
      exact absurd hok (mmap_ne_ok_of_not_accepted k tid hreject vaddr)
  | munmap | mprotect | fault | cleanup => simp [MmapCall.Records, MmapCall.Accepted]

/-- **The table records nothing.**  In a run of a process, every range that `mmap` returns is
recorded only if no call of `mmap` succeeds. -/
theorem records_along_iff (frames : FrameAllocator) (mem : PhysMem) (l4 : ℕ) (tid : TaskId)
    (calls : List MmapCall) :
    Along (Kernel.step tid) (fun k call => call.Records tid k) (boot frames mem l4) calls ↔
      ∀ call ∈ calls, ¬ call.Accepted := by
  have hboot : Fresh tid (boot frames mem l4) := fun manager hm => by cases hm
  rw [along_congr (I := Fresh tid) (Q := fun _ call => ¬ call.Accepted)
    (fun k call hk _ => hk.step call) (fun k call hk => hk.records_iff call) hboot]
  exact along_iff_forall_mem

/-- Two mappings of a process, one after the other: both have the same addresses, and neither is in
the table. -/
theorem two_mappings_meet :
    ∃ (k : Kernel) (call : MmapCall), k.managers = (fun _ => none) ∧
      call = .mmap 0 0x1000 protRead (mapPrivate ||| mapAnonymous) (-1) 0 none (fun _ => []) ∧
      (k.mmap 1 0 0x1000 protRead (mapPrivate ||| mapAnonymous) (-1) 0 none (fun _ => [])).1 =
        some (.ok 0x700000000000) ∧
      ((k.step 1 call).mmap 1 0 0x1000 protRead (mapPrivate ||| mapAnonymous) (-1) 0 none
        (fun _ => [])).1 = some (.ok 0x700000000000) ∧
      ((k.step 1 call).step 1 call).managers 1 = some {} :=
  ⟨boot ⟨⟨512, false⟩, .withMaxFrames 512, false, {}, 0, 0⟩ (fun _ _ => 0) 0, _, rfl, rfl, rfl, rfl,
    rfl⟩

end Kernel

/-! ## The lowest free address -/

namespace MmapManager

/-- Where the search of `find_free_address` begins. -/
def searchStart (m : MmapManager) (hint : UInt64) : UInt64 :=
  if hint ≠ 0 ∧ m.nextAddr ≤ hint &&& ~~~4095 then hint &&& ~~~4095 else m.nextAddr

/-- The `length` bytes at `addr` end by the start of the region, or begin behind it. -/
def Apart (addr length : ℕ) (r : MmapRegion) : Prop :=
  addr + length ≤ r.start.toNat ∨ r.start.toNat + r.length.toNat ≤ addr

variable {m : MmapManager} {length candidate : UInt64}

/-- No sum that the search may form from a candidate on is above 64 bits. -/
structure NoWrap (m : MmapManager) (length candidate : UInt64) : Prop where
  first : candidate.toNat + length.toNat < 2 ^ 64
  ends : ∀ r ∈ m.regions, r.start.toNat + r.length.toNat + 4095 < 2 ^ 64
  bumped : ∀ r ∈ m.regions, (pageAlignUp r.endAddr).toNat + length.toNat < 2 ^ 64

theorem overlaps_iff {r : MmapRegion} (h : m.NoWrap length candidate) (hr : r ∈ m.regions) :
    overlaps candidate length r = true ↔ ¬ Apart candidate.toNat length.toNat r := by
  have hend := h.ends r hr
  have hfirst := h.first
  simp only [overlaps, Apart, MmapRegion.endAddr, Bool.and_eq_true, decide_eq_true_iff,
    UInt64.lt_iff_toNat_lt, UInt64.toNat_add]
  omega

theorem searchLoop_isLeast {turns : ℕ} (h : m.NoWrap length candidate)
    (hpage : 4096 ∣ candidate.toNat)
    (hturns : m.regions.countP (candidate.toNat < ·.endAddr.toNat) < turns) :
    ∃ addr, m.searchLoop length turns candidate = some addr ∧
      IsLeast {b | candidate.toNat ≤ b ∧ 4096 ∣ b ∧ ∀ r ∈ m.regions, Apart b length.toNat r}
        addr.toNat := by
  induction turns generalizing candidate with
  | zero => omega
  | succ turns ih =>
    rw [searchLoop]
    cases hfind : m.regions.find? (overlaps candidate length) with
    | none =>
      refine ⟨candidate, rfl, ⟨le_rfl, hpage, fun r hr => ?_⟩, fun b hb => hb.1⟩
      have hfree := List.find?_eq_none.mp hfind r hr
      rwa [overlaps_iff h hr, not_not] at hfree
    | some r =>
      have hr := List.mem_of_find?_eq_some hfind
      have hover := (overlaps_iff h hr).mp (List.find?_some hfind)
      have hend : r.endAddr.toNat = r.start.toNat + r.length.toNat := by
        have := h.ends r hr
        rw [MmapRegion.endAddr, UInt64.toNat_add]
        omega
      have hnext : (pageAlignUp r.endAddr).toNat = (r.endAddr.toNat + 4095) / 4096 * 4096 := by
        have := h.ends r hr
        rw [toNat_pageAlignUp]
        omega
      unfold Apart at hover
      -- The region is behind the next candidate, and no other one comes back.
      have hfewer : m.regions.countP ((pageAlignUp r.endAddr).toNat < ·.endAddr.toNat) <
          m.regions.countP (candidate.toNat < ·.endAddr.toNat) := by
        have hlt : (m.regions.filter (candidate.toNat < ·.endAddr.toNat)).countP
            ((pageAlignUp r.endAddr).toNat < ·.endAddr.toNat) < _ :=
          List.countP_lt_length_iff.mpr ⟨r, by simp [hr]; omega, by simp; omega⟩
        rw [List.countP_filter, ← List.countP_eq_length_filter] at hlt
        refine lt_of_le_of_lt (List.countP_mono_left fun x _ hx => ?_) hlt
        simp only [decide_eq_true_iff, Bool.and_eq_true] at hx ⊢
        omega
      obtain ⟨addr, hloop, hmem, hleast⟩ := ih ⟨h.bumped r hr, h.ends, h.bumped⟩
        (hnext ▸ Nat.dvd_mul_left ..) (by omega)
      refine ⟨addr, hloop, ⟨by have := hmem.1; omega, hmem.2⟩, fun b hb => hleast ⟨?_, hb.2⟩⟩
      obtain ⟨hfrom, hdvd, hall⟩ := hb
      have hapart := hall r hr
      unfold Apart at hapart
      omega

/-- **The search for a free address** ends with the lowest one. -/
theorem findFreeAddress_lowest (m : MmapManager) (length hint : UInt64)
    (hpage : 4096 ∣ m.nextAddr.toNat) (h : m.NoWrap length (m.searchStart hint)) :
    ∃ addr, m.findFreeAddress length hint false =
        some (.ok (addr, { m with nextAddr := addr + length })) ∧
      IsLeast {b | (m.searchStart hint).toNat ≤ b ∧ 4096 ∣ b ∧
        ∀ r ∈ m.regions, Apart b length.toNat r} addr.toNat := by
  have hstart : 4096 ∣ (m.searchStart hint).toNat := by
    rw [searchStart]
    split_ifs
    · rw [toNat_and_not_4095]
      exact Nat.dvd_mul_left ..
    · exact hpage
  obtain ⟨addr, hloop, hleast⟩ := searchLoop_isLeast h hstart
    (List.countP_le_length.trans_lt (Nat.lt_add_of_pos_right Nat.two_pos))
  refine ⟨addr, ?_, hleast⟩
  rw [searchStart] at hloop
  simp only [findFreeAddress, Bool.false_eq_true, if_false, hloop]

/-- The search starts at a page that is taken. -/
theorem findFreeAddress_lowest_sample : ∃ m : MmapManager,
    m.regions = [⟨0x3000, 0x1800, 0, 0, .anonymous, []⟩, ⟨0x1000, 0x1000, 0, 0, .anonymous, []⟩] ∧
    ∃ addr, m.findFreeAddress 0x1000 0 false =
        some (.ok (addr, { m with nextAddr := addr + 0x1000 })) ∧
      IsLeast {b | 0x1000 ≤ b ∧ 4096 ∣ b ∧ ∀ r ∈ m.regions, Apart b 0x1000 r} addr.toNat := by
  exact ⟨⟨_, 0x1000, 0⟩, rfl,
    findFreeAddress_lowest _ 0x1000 0 (by decide) ⟨by decide, by decide, by decide⟩⟩

end MmapManager

end IonaOs.Process
