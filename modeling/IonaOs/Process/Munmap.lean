import IonaOs.Process.Mmap

/-!
# What `munmap` removes
-/

namespace IonaOs.Process

open Lib Memory List

/-- The address is one of the `length` bytes at `addr`. -/
def InRange (addr length x : UInt64) : Prop :=
  addr.toNat ≤ x.toNat ∧ x.toNat < addr.toNat + length.toNat

def MmapRegion.fileByte (r : MmapRegion) (x : UInt64) : Option (String × UInt64) :=
  match r.backing with
  | .anonymous => none
  | .file path offset _ => some (path, offset + (x - r.start))

structure UnmapsExactly (addr length : UInt64) (old new : List MmapRegion) : Prop where
  gone : ∀ x, InRange addr length x → ∀ r ∈ new, r.contains x = false
  kept : ∀ x, ¬ InRange addr length x → ∀ r ∈ old, r.contains x → ∃ r' ∈ new, r'.contains x ∧
    r'.prot = r.prot ∧ r'.flags = r.flags ∧ r'.fileByte x = r.fileByte x

namespace Kernel

variable {k : Kernel} {tid : TaskId} {addr length : UInt64}

def regionsOf (k : Kernel) (tid : TaskId) : List MmapRegion :=
  match k.managers tid with
  | none => []
  | some manager => manager.regions

@[simp] theorem managers_unmapPage (k : Kernel) (page : UInt64 × ℕ) :
    (k.unmapPage page).managers = k.managers := by
  unfold unmapPage
  split <;> rfl

@[simp] theorem managers_unmapPages (k : Kernel) (region : MmapRegion) :
    (k.unmapPages region).managers = k.managers := by
  unfold unmapPages
  exact exec_invariant (I := fun k' => k'.managers = k.managers) rfl
    fun k' page h => (managers_unmapPage k' page).trans h

theorem regionsOf_unmapPages_setManager (k : Kernel) (manager : MmapManager) (region : MmapRegion) :
    ((k.setManager tid manager).unmapPages region).regionsOf tid = manager.regions := by
  simp [regionsOf, setManager]

/-- The part of a region that `munmap` cuts off. -/
def headOf (region : MmapRegion) (length : UInt64) : MmapRegion := { region with
  length
  pages := region.pages.filter (·.1 < region.start + length) }

def restOf (region : MmapRegion) (length : UInt64) : MmapRegion := { region with
  start := region.start + length
  length := region.length - length
  pages := region.pages.filter (region.start + length ≤ ·.1) }

theorem munmap_cases (k : Kernel) (tid : TaskId) (addr length : UInt64) :
    ((k.munmap tid addr length).2 = k ∧
        ((k.munmap tid addr length).1 = .ok () → pageAlignUp length = 0) ∧
        (pageAlignUp length ≠ 0 → ∀ before region after,
          cut (·.start = addr) (k.regionsOf tid) = some (before, region, after) →
            region.length < pageAlignUp length)) ∨
      ∃ manager before region after, pageAlignUp length ≠ 0 ∧ k.managers tid = some manager ∧
        cut (·.start = addr) manager.regions = some (before, region, after) ∧
        ((region.length = pageAlignUp length ∧
            k.munmap tid addr length = (.ok (), (k.setManager tid ({ manager with
              regions := before ++ after }.decMappedPages (.ofNat region.pages.length))).unmapPages
                region)) ∨
          (pageAlignUp length < region.length ∧
            k.munmap tid addr length = (.ok (), (k.setManager tid ({ manager with
              regions := before ++ headOf region (pageAlignUp length) ::
                restOf region (pageAlignUp length) :: after }.decMappedPages
                  (.ofNat (region.pages.length -
                    (restOf region (pageAlignUp length)).pages.length)))).unmapPages
                      (headOf region (pageAlignUp length))))) := by
  by_cases hzero : length = 0
  · subst hzero
    exact .inl ⟨by simp [munmap], by simp [munmap], fun hround => absurd rfl hround⟩
  by_cases hround : pageAlignUp length = 0
  · exact .inl (by simp [munmap, hzero, hround])
  cases hm : k.managers tid with
  | none => exact .inl (by simp [munmap, hzero, hround, hm, regionsOf, cut])
  | some manager =>
    have hregions : k.regionsOf tid = manager.regions := by simp [regionsOf, hm]
    cases hcut : cut (·.start = addr) manager.regions with
    | none => exact .inl (by simp [munmap, hzero, hround, hm, hregions, hcut])
    | some c =>
      obtain ⟨before, region, after⟩ := c
      obtain ⟨-, hstart, -⟩ := cut_eq_some hcut
      obtain rfl : region.start = addr := by simpa using hstart
      by_cases hfull : region.length = pageAlignUp length
      · refine .inr ⟨manager, before, region, after, hround, rfl, hcut, .inl ⟨hfull, ?_⟩⟩
        simp [munmap, hzero, hround, hm, hcut, hfull]
      by_cases hlt : pageAlignUp length < region.length
      · refine .inr ⟨manager, before, region, after, hround, rfl, hcut, .inr ⟨hlt, ?_⟩⟩
        simp [munmap, hzero, hround, hm, hcut, hfull, hlt, headOf, restOf]
      refine .inl ⟨?_, ?_, ?_⟩
      · simp [munmap, hzero, hround, hm, hcut, hfull, hlt]
      · simp [munmap, hzero, hround, hm, hcut, hfull, hlt]
      intro _ before' region' after' hcut'
      rw [hregions, hcut] at hcut'
      cases hcut'
      exact UInt64.lt_of_le_of_ne (UInt64.not_lt.mp hlt) hfull

theorem regionsOf_munmap (hok : (k.munmap tid addr length).1 = .ok ())
    (hlen : pageAlignUp length ≠ 0) :
    ∃ before region after, cut (·.start = addr) (k.regionsOf tid) = some (before, region, after) ∧
      ((region.length = pageAlignUp length ∧
          (k.munmap tid addr length).2.regionsOf tid = before ++ after) ∨
        (pageAlignUp length < region.length ∧ (k.munmap tid addr length).2.regionsOf tid =
            before ++ headOf region (pageAlignUp length) :: restOf region (pageAlignUp length) ::
              after)) := by
  rcases k.munmap_cases tid addr length with
    ⟨-, hnone, -⟩ | ⟨manager, before, region, after, -, hm, hcut, h⟩
  · exact absurd (hnone hok) hlen
  have hregions : k.regionsOf tid = manager.regions := by simp [regionsOf, hm]
  refine ⟨before, region, after, hregions ▸ hcut, ?_⟩
  rcases h with ⟨hfull, heq⟩ | ⟨hlt, heq⟩
  · rw [heq]
    exact .inl ⟨hfull, regionsOf_unmapPages_setManager ..⟩
  · rw [heq]
    exact .inr ⟨hlt, regionsOf_unmapPages_setManager ..⟩

theorem pageAlignUp_of_dvd (h : 4096 ∣ length.toNat) : pageAlignUp length = length := by
  rw [← UInt64.toNat_inj, toNat_pageAlignUp]
  have hlt := length.toNat_lt
  omega

theorem contains_iff {r : MmapRegion} {x : UInt64} : r.contains x = true ↔ r.start.toNat ≤ x.toNat ∧
      x.toNat < (r.start.toNat + r.length.toNat) % 2 ^ 64 := by
  simp [MmapRegion.contains, MmapRegion.endAddr, UInt64.le_iff_toNat_le, UInt64.lt_iff_toNat_lt]

section Split

variable {before after : List MmapRegion} {region : MmapRegion}

theorem unmapsExactly_full_iff :
    UnmapsExactly region.start region.length (before ++ region :: after) (before ++ after) ↔
      ∀ r ∈ before ++ after, ∀ x, InRange region.start region.length x → r.contains x = false := by
  constructor
  · intro h r hr x hx
    exact h.gone x hx r hr
  intro h
  refine ⟨fun x hx r hr => h r hr x hx, ?_⟩
  intro x hx r hr hcontains
  rcases mem_append.mp hr with hr | hr
  · exact ⟨r, mem_append_left _ hr, hcontains, rfl, rfl, rfl⟩
  · rcases mem_cons.mp hr with rfl | hr
    · rw [contains_iff] at hcontains
      exact absurd ⟨hcontains.1, hcontains.2.trans_le (Nat.mod_le _ _)⟩ hx
    · exact ⟨r, mem_append_right _ hr, hcontains, rfl, rfl, rfl⟩

theorem unmapsExactly_partial_iff (hpos : length ≠ 0) (hlt : length < region.length) :
    UnmapsExactly region.start length (before ++ region :: after)
        (before ++ headOf region length :: restOf region length :: after) ↔
      2 ^ 64 ≤ region.start.toNat + length.toNat ∧
        ∀ r ∈ before ++ after, ∀ x, InRange region.start length x → r.contains x = false := by
  have hpos' : 0 < length.toNat := by
    rw [Nat.pos_iff_ne_zero]
    exact fun h0 => hpos (UInt64.toNat_inj.mp h0)
  have hbound := region.start.toNat_lt
  have hlength := region.length.toNat_lt
  rw [UInt64.lt_iff_toNat_lt] at hlt
  constructor
  · intro h
    refine ⟨?_, ?_⟩
    · by_contra hsmall
      have hfirst := h.gone region.start ⟨le_rfl, by omega⟩ (headOf region length)
        (mem_append_right _ (mem_cons_self ..))
      have hin : (headOf region length).contains region.start = true := by
        rw [contains_iff]
        simp only [headOf]
        omega
      rw [hin] at hfirst
      cases hfirst
    · intro r hr x hx
      refine h.gone x hx r ?_
      rcases mem_append.mp hr with hr | hr
      · exact mem_append_left _ hr
      · exact mem_append_right _ (mem_cons_of_mem _ (mem_cons_of_mem _ hr))
  · rintro ⟨hwrap, hothers⟩
    -- The region and its first part end below their start, and the rest ends there too.
    have hwhole : ∀ x, region.contains x = false := by
      intro x
      rw [← Bool.not_eq_true, contains_iff]
      omega
    have hhead : ∀ x, (headOf region length).contains x = false := by
      intro x
      rw [← Bool.not_eq_true, contains_iff]
      simp only [headOf]
      omega
    have hrest : ∀ x, InRange region.start length x →
        (restOf region length).contains x = false := by
      intro x hx
      have hsub : (region.length - length).toNat = region.length.toNat - length.toNat :=
        UInt64.toNat_sub_of_le _ _ (UInt64.le_iff_toNat_le.mpr hlt.le)
      rw [← Bool.not_eq_true, contains_iff]
      simp only [restOf, UInt64.toNat_add, hsub]
      have hlow := hx.1
      omega
    refine ⟨?_, ?_⟩
    · intro x hx r hr
      rcases mem_append.mp hr with hr | hr
      · exact hothers r (mem_append_left _ hr) x hx
      rcases mem_cons.mp hr with rfl | hr
      · exact hhead x
      · rcases mem_cons.mp hr with rfl | hr
        · exact hrest x hx
        · exact hothers r (mem_append_right _ hr) x hx
    · intro x _ r hr hcontains
      rcases mem_append.mp hr with hr | hr
      · exact ⟨r, mem_append_left _ hr, hcontains, rfl, rfl, rfl⟩
      rcases mem_cons.mp hr with rfl | hr
      · rw [hwhole x] at hcontains
        cases hcontains
      · exact ⟨r, mem_append_right _ (mem_cons_of_mem _ (mem_cons_of_mem _ hr)),
          hcontains, rfl, rfl, rfl⟩

end Split

/-- **When `munmap` removes exactly its range.**  The first region that starts at the address has to
have the length that is given (or to have no addresses, because it reaches over their end), and no
other region may meet the range. -/
theorem munmap_exact_iff (hlen : 4096 ∣ length.toNat)
    (hok : (k.munmap tid addr length).1 = .ok ()) :
    UnmapsExactly addr length (k.regionsOf tid) ((k.munmap tid addr length).2.regionsOf tid) ↔
      ∃ before region after, cut (·.start = addr) (k.regionsOf tid) = some (before, region, after) ∧
        (region.length = length ∨ 2 ^ 64 ≤ addr.toNat + length.toNat) ∧
        ∀ r ∈ before ++ after, ∀ x, InRange addr length x → r.contains x = false := by
  have hround := pageAlignUp_of_dvd hlen
  have hpos : length ≠ 0 := by
    rintro rfl
    simp [munmap] at hok
  obtain ⟨before, region, after, hcut, hcases⟩ := regionsOf_munmap hok (hround.symm ▸ hpos)
  obtain ⟨hsplit, hstart, -⟩ := cut_eq_some hcut
  obtain rfl : region.start = addr := by simpa using hstart
  rw [exists_cut_iff (P := fun before region' after => (region'.length = length ∨ _) ∧ _) hcut]
  rw [hround] at hcases
  rcases hcases with ⟨hfull, hnew⟩ | ⟨hlt, hnew⟩
  · rw [hsplit, hnew, ← hfull, unmapsExactly_full_iff]
    simp
  · rw [hsplit, hnew, unmapsExactly_partial_iff hpos hlt]
    have hne : region.length ≠ length := by
      rintro rfl
      exact absurd hlt (UInt64.lt_irrefl _)
    simp [hne]

def withRegions (regions : List MmapRegion) : Kernel where
  managers := Function.update (fun _ => none) 1 (some { regions })
  frames := ⟨⟨512, false⟩, .withMaxFrames 512, false, {}, 0, 0⟩
  mem := fun _ _ => 0
  l4 := 0

theorem munmap_exact_sample :
    ∃ k : Kernel, k = withRegions [⟨0x700000000000, 0x1000, protRead, mapPrivate, .anonymous, []⟩,
        ⟨0x700000001000, 0x1000, protRead, mapPrivate, .anonymous, []⟩] ∧
      (k.munmap 1 0x700000000000 0x1000).1 = .ok () ∧
      UnmapsExactly 0x700000000000 0x1000 (k.regionsOf 1)
        ((k.munmap 1 0x700000000000 0x1000).2.regionsOf 1) := by
  refine ⟨_, rfl, rfl, (munmap_exact_iff (by decide) rfl).mpr ⟨[], _, _, rfl, .inl rfl, ?_⟩⟩
  intro r hr x hx
  obtain rfl := mem_singleton.mp hr
  rw [← Bool.not_eq_true, contains_iff]
  have hhigh : x.toNat < 0x700000001000 := hx.2
  exact fun hin => absurd hin.1 (Nat.not_le.mpr hhigh)

/-- The first of two pages of a file is unmapped.  It still belongs to a region, and the second page
now shows the first bytes of the file. -/
theorem first_page_stays :
    ∃ (k : Kernel) (whole head rest : MmapRegion),
      whole = ⟨0x700000000000, 0x2000, protRead, mapShared, .file "data" 0 true, []⟩ ∧
      k.regionsOf 1 = [whole] ∧
      (k.munmap 1 0x700000000000 0x1000).1 = .ok () ∧
      (k.munmap 1 0x700000000000 0x1000).2.regionsOf 1 = [head, rest] ∧
      head.contains 0x700000000000 ∧
      whole.fileByte 0x700000001000 = some ("data", 0x1000) ∧
      rest.contains 0x700000001000 ∧ head.contains 0x700000001000 = false ∧
      rest.fileByte 0x700000001000 = some ("data", 0) :=
  ⟨withRegions [⟨0x700000000000, 0x2000, protRead, mapShared, .file "data" 0 true, []⟩], _, _, _,
    rfl, rfl, rfl, rfl, rfl, rfl, rfl, rfl, rfl⟩

end Kernel

end IonaOs.Process
