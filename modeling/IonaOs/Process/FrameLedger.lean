import IonaOs.Memory.FrameCounts
import IonaOs.Process.RegionTable
import IonaOs.Process.Munmap

/-!
# References on the frames of mapped pages
-/

namespace IonaOs.Process

open Lib Memory Function List FrameAllocator

namespace Kernel

def entries (k : Kernel) (tid : TaskId) (f : ℕ) : ℕ :=
  ((k.regionsOf tid).flatMap (·.pages)).countP (·.2 = f)

def Counted (tid : TaskId) (others : ℕ → ℕ) (k : Kernel) : Prop :=
  ∀ f, k.frames.refs f = k.entries tid f + others f

def TablesFor (k : Kernel) (pages : PageMap) : Prop :=
  Along unmapPage (fun k page => (k.lastTable page.1).isSome) k pages

/-- If a fault in the region gets as far as `map_frame`, the tables are there, or no frame is
free. -/
def RegionClean (k : Kernel) (region : MmapRegion) (page : UInt64) (write : Bool)
    (files : String → List UInt8) : Prop :=
  (write = true → region.prot &&& protWrite ≠ 0) →
  (write = false → region.prot &&& protRead ≠ 0) →
  ∀ new, k.frames.allocateOne.1 = .ok new →
    match region.pages.lookup page with
    | some frame => write = true →
        if region.isPrivate then
          ({ k with mem := update k.mem new (k.mem frame) }.lastTable page).isSome
        else (k.lastTable page).isSome
    | none =>
      let filled := update k.mem new (region.backing.fill files (page - region.start))
      ({ k with mem := filled }.lastTable page).isSome

def FaultClean (k : Kernel) (tid : TaskId) (virt : UInt64) (write : Bool)
    (files : String → List UInt8) : Prop :=
  ∀ before region after, cut (·.contains virt) (k.regionsOf tid) = some (before, region, after) →
    k.RegionClean region (virt &&& ~~~0xfff) write files

end Kernel

namespace MmapCall

def FailsCleanly (tid : TaskId) (k : Kernel) : MmapCall → Prop
  | .fault virt write files => (k.handleMmapFault tid virt write files).1 = false →
      (k.handleMmapFault tid virt write files).2.regionsOf tid = k.regionsOf tid ∧
        ∀ f, (k.handleMmapFault tid virt write files).2.frames.refs f = k.frames.refs f
  | _ => True

def Keeps (tid : TaskId) (others : ℕ → ℕ) (k : Kernel) (call : MmapCall) : Prop :=
  (k.step tid call).Counted tid others ∧ call.FailsCleanly tid k

def Clean (tid : TaskId) (k : Kernel) : MmapCall → Prop
  | .mmap .. => True
  | .mprotect .. => True
  | .fault virt write files => k.FaultClean tid virt write files
  | .munmap addr length => pageAlignUp length ≠ 0 → ∀ before region after,
      cut (·.start = addr) (k.regionsOf tid) = some (before, region, after) →
        (region.length = pageAlignUp length → k.TablesFor region.pages) ∧
        (pageAlignUp length < region.length →
          ∀ page ∈ (Kernel.headOf region (pageAlignUp length)).pages, k.lastTable page.1 = none)
  | .cleanup => k.TablesFor ((k.regionsOf tid).flatMap (·.pages))

end MmapCall

/-! ## Page maps -/

namespace PageMap

variable {l : PageMap} {page : UInt64} {old : ℕ}

theorem countP_insert (l : PageMap) (page : UInt64) (new f : ℕ) :
    (l.insert page new).countP (·.2 = f) + (if l.lookup page = some f then 1 else 0) =
      l.countP (·.2 = f) + if f = new then 1 else 0 := by
  induction l with
  | nil => simp [PageMap.insert, eq_comm]
  | cons e =>
    obtain ⟨page', frame'⟩ := e
    rw [lookup_cons]
    by_cases hpage : page = page'
    · simp [PageMap.insert, hpage, countP_cons, eq_comm, add_right_comm]
    · rw [beq_eq_false_iff_ne.mpr hpage]
      simp only [PageMap.insert, hpage, if_false]
      split_ifs <;> simp_all [countP_cons] <;> omega

end PageMap

namespace Kernel

variable {k k' : Kernel} {tid : TaskId} {others : ℕ → ℕ}

theorem regionsOf_congr (h : k'.managers = k.managers) : k'.regionsOf tid = k.regionsOf tid := by
  rw [regionsOf, regionsOf, h]

@[simp] theorem regionsOf_setManager (k : Kernel) (manager : MmapManager) :
    (k.setManager tid manager).regionsOf tid = manager.regions := by
  simp [regionsOf, setManager]

theorem regionsOf_of_some {manager : MmapManager} (h : k.managers tid = some manager) :
    k.regionsOf tid = manager.regions := by
  simp [regionsOf, h]

theorem regionsOf_of_none (h : k.managers tid = none) : k.regionsOf tid = [] := by
  simp [regionsOf, h]

theorem entries_congr (h : k'.regionsOf tid = k.regionsOf tid) (f : ℕ) :
    k'.entries tid f = k.entries tid f := by
  rw [entries, entries, h]

variable {before after : List MmapRegion}

theorem entries_eq {region : MmapRegion} (h : k.regionsOf tid = before ++ region :: after) (f : ℕ) :
    k.entries tid f = (before.flatMap (·.pages)).countP (·.2 = f) +
      (region.pages.countP (·.2 = f) + (after.flatMap (·.pages)).countP (·.2 = f)) := by
  rw [entries, h, flatMap_append, flatMap_cons, countP_append, countP_append]

theorem Counted.congr (h : k.Counted tid others) (hregions : k'.regionsOf tid = k.regionsOf tid)
    (hrefs : ∀ f, k'.frames.refs f = k.frames.refs f) : k'.Counted tid others := by
  intro f
  rw [hrefs, h f, entries_congr hregions]

/-! ## Unmapping -/

theorem unmapPage_of_none {page : UInt64 × ℕ} (h : k.lastTable page.1 = none) :
    k.unmapPage page = k := by
  rw [unmapPage, h]

def dropped (k : Kernel) : PageMap → PageMap
  | [] => []
  | page :: rest =>
    if (k.lastTable page.1).isSome then page :: dropped (k.unmapPage page) rest
    else dropped (k.unmapPage page) rest

theorem dropped_cons (k : Kernel) (page : UInt64 × ℕ) (rest : PageMap) :
    k.dropped (page :: rest) = if (k.lastTable page.1).isSome then
      page :: (k.unmapPage page).dropped rest else (k.unmapPage page).dropped rest := rfl

theorem dropped_sublist (k : Kernel) (pages : PageMap) : (k.dropped pages).Sublist pages := by
  induction pages generalizing k with
  | nil => exact .slnil
  | cons page _ ih =>
    rw [dropped_cons]
    split
    · exact (ih _).cons_cons page
    · exact (ih _).cons page

variable {pages : PageMap}

theorem refs_exec_unmapPage (hs : k.frames.Sound)
    (hle : ∀ f, pages.countP (·.2 = f) ≤ k.frames.refs f) : (exec unmapPage k pages).frames.Sound ∧
      ∀ f, (exec unmapPage k pages).frames.refs f + (k.dropped pages).countP (·.2 = f) =
        k.frames.refs f := by
  induction pages generalizing k with
  | nil => exact ⟨hs, fun f => rfl⟩
  | cons page rest ih =>
    rw [exec_cons, dropped_cons]
    cases htable : k.lastTable page.1 with
    | none =>
      rw [unmapPage_of_none htable]
      refine ih hs fun f => le_trans ?_ (hle f)
      exact (sublist_cons_self page rest).countP_le
    | some =>
      have hframes : (k.unmapPage page).frames = (k.frames.freeFrame page.2).2 := by
        rw [unmapPage, htable]
        rfl
      have hrefs := hs.refs_freeFrame page.2
      have hpage := hle page.2
      rw [countP_cons_of_pos (by simp)] at hpage
      obtain ⟨hsound, hcount⟩ := ih (k := k.unmapPage page) (hframes ▸ hs.freeFrame page.2) (by
        intro f
        have hf := hle f
        rw [countP_cons] at hf
        rw [hframes, hrefs]
        split
        · rename_i heq
          rw [heq]
          omega
        · omega)
      refine ⟨hsound, ?_⟩
      intro f
      have hf := hcount f
      rw [hframes, hrefs] at hf
      simp only [Option.isSome_some, if_true, countP_cons, decide_eq_true_eq]
      by_cases heq : f = page.2
      · subst heq
        rw [if_pos rfl] at hf ⊢
        omega
      · rw [if_neg heq] at hf
        rw [if_neg (Ne.symm heq)]
        omega

theorem tablesFor_iff_dropped (k : Kernel) (pages : PageMap) :
    k.TablesFor pages ↔ k.dropped pages = pages := by
  induction pages generalizing k with
  | nil => simp [TablesFor, dropped]
  | cons page rest ih =>
    have hcons : k.TablesFor (page :: rest) ↔
        (k.lastTable page.1).isSome ∧ (k.unmapPage page).TablesFor rest := Iff.rfl
    rw [hcons, ih, dropped_cons]
    by_cases htable : (k.lastTable page.1).isSome
    · simp [htable]
    simp only [htable, Bool.false_eq_true, false_and, if_false, false_iff]
    intro heq
    have hlen := ((k.unmapPage page).dropped_sublist rest).length_le
    rw [heq, length_cons] at hlen
    omega

theorem exists_countP_dropped_lt (h : k.dropped pages ≠ pages) :
    ∃ f, (k.dropped pages).countP (·.2 = f) < pages.countP (·.2 = f) := by
  induction pages generalizing k with
  | nil => exact absurd rfl h
  | cons page rest ih =>
    rw [dropped_cons] at h ⊢
    by_cases htable : (k.lastTable page.1).isSome
    · rw [if_pos htable] at h ⊢
      obtain ⟨f, hf⟩ := ih fun heq => h (by rw [heq])
      refine ⟨f, ?_⟩
      rw [countP_cons, countP_cons]
      omega
    · rw [if_neg htable]
      refine ⟨page.2, ?_⟩
      rw [countP_cons_of_pos (by simp)]
      exact Nat.lt_succ_of_le ((dropped_sublist _ rest).countP_le)

theorem dropped_eq_nil_iff : k.dropped pages = [] ↔ ∀ page ∈ pages, k.lastTable page.1 = none := by
  induction pages with
  | nil => simp [dropped]
  | cons page _ ih =>
    rw [dropped_cons]
    cases htable : k.lastTable page.1 with
    | none => simp [htable, unmapPage_of_none htable, ih]
    | some => simp [htable]

theorem dropped_congr (hmem : k'.mem = k.mem) (hl4 : k'.l4 = k.l4) :
    k'.dropped pages = k.dropped pages := by
  induction pages generalizing k k' with
  | nil => rfl
  | cons page rest ih =>
    have htable : k'.lastTable page.1 = k.lastTable page.1 := by
      rw [lastTable, lastTable, hmem, hl4]
    have hnext : (k'.unmapPage page).dropped rest = (k.unmapPage page).dropped rest := by
      refine ih ?_ ?_
      · rw [unmapPage, unmapPage, htable]
        split <;> simp [decRef, hmem]
      · rw [unmapPage, unmapPage, htable]
        split <;> simp [decRef, hl4]
    rw [dropped_cons, dropped_cons, htable, hnext]

theorem drops_all_iff (hs : k.frames.Sound) {rest : ℕ → ℕ}
    (hrefs : ∀ f, k.frames.refs f = pages.countP (·.2 = f) + rest f) :
    (exec unmapPage k pages).frames.Sound ∧
      ((∀ f, (exec unmapPage k pages).frames.refs f = rest f) ↔ k.TablesFor pages) := by
  have hle : ∀ f, pages.countP (·.2 = f) ≤ k.frames.refs f := by
    intro f
    rw [hrefs]
    exact Nat.le_add_right _ _
  obtain ⟨hsound, hcount⟩ := refs_exec_unmapPage hs hle
  refine ⟨hsound, ?_⟩
  rw [tablesFor_iff_dropped]
  constructor
  · intro hrest
    by_contra hne
    obtain ⟨f, hlt⟩ := exists_countP_dropped_lt hne
    have hf := hcount f
    rw [hrefs, hrest] at hf
    omega
  · intro hall f
    have hf := hcount f
    rw [hrefs, hall] at hf
    omega

theorem drops_none_iff (hs : k.frames.Sound) (hle : ∀ f, pages.countP (·.2 = f) ≤ k.frames.refs f) :
    (exec unmapPage k pages).frames.Sound ∧
      ((∀ f, (exec unmapPage k pages).frames.refs f = k.frames.refs f) ↔
        ∀ page ∈ pages, k.lastTable page.1 = none) := by
  obtain ⟨hsound, hcount⟩ := refs_exec_unmapPage hs hle
  refine ⟨hsound, ?_⟩
  rw [← dropped_eq_nil_iff]
  constructor
  · intro hsame
    cases hdropped : k.dropped pages with
    | nil => rfl
    | cons page =>
      have hf := hcount page.2
      rw [hsame, hdropped, countP_cons_of_pos (by simp)] at hf
      omega
  · intro hnil f
    have hf := hcount f
    rw [hnil] at hf
    exact hf

theorem tablesFor_congr (hmem : k'.mem = k.mem) (hl4 : k'.l4 = k.l4) :
    k'.TablesFor pages ↔ k.TablesFor pages := by
  rw [tablesFor_iff_dropped, tablesFor_iff_dropped, dropped_congr hmem hl4]

theorem countP_headOf_add_restOf (region : MmapRegion) (length : UInt64) (f : ℕ) :
    (headOf region length).pages.countP (·.2 = f) + (restOf region length).pages.countP (·.2 = f) =
      region.pages.countP (·.2 = f) := by
  have hsplit := countP_eq_countP_filter_add region.pages (·.2 = f) (·.1 < region.start + length)
  have hnot : ∀ page : UInt64 × ℕ, (!decide (page.1 < region.start + length)) =
      decide (region.start + length ≤ page.1) := by
    intro page
    rw [← decide_not, decide_eq_decide]
    exact UInt64.not_lt
  simp only [hnot] at hsplit
  exact hsplit.symm

section Munmap

variable {before after : List MmapRegion} {region : MmapRegion} (manager : MmapManager)
  (hs : k.frames.Sound) (hc : k.Counted tid others)
include hs hc

theorem counted_removed_iff (hold : k.regionsOf tid = before ++ region :: after)
    (hnew : manager.regions = before ++ after) :
    ((k.setManager tid manager).unmapPages region).frames.Sound ∧
      (((k.setManager tid manager).unmapPages region).Counted tid others ↔
        k.TablesFor region.pages) := by
  have hrefs : ∀ f, (k.setManager tid manager).frames.refs f = region.pages.countP (·.2 = f) +
      ((manager.regions.flatMap (·.pages)).countP (·.2 = f) + others f) := by
    intro f
    rw [hnew, flatMap_append, countP_append]
    have hf := hc f
    rw [entries_eq hold] at hf
    change k.frames.refs f = _
    omega
  obtain ⟨hsound, hdrops⟩ := drops_all_iff (k := k.setManager tid manager) hs hrefs
  refine ⟨hsound, Iff.trans (forall_congr' fun f => ?_) (hdrops.trans (tablesFor_congr rfl rfl))⟩
  rw [entries, regionsOf_unmapPages_setManager]
  rfl

theorem counted_split_iff (hold : k.regionsOf tid = before ++ region :: after) {length : UInt64}
    (hnew : manager.regions = before ++ headOf region length :: restOf region length :: after) :
    ((k.setManager tid manager).unmapPages (headOf region length)).frames.Sound ∧
      (((k.setManager tid manager).unmapPages (headOf region length)).Counted tid others ↔
        ∀ page ∈ (headOf region length).pages, k.lastTable page.1 = none) := by
  have hsame : ∀ f, (manager.regions.flatMap (·.pages)).countP (·.2 = f) + others f =
      k.frames.refs f := by
    intro f
    have hparts := countP_headOf_add_restOf region length f
    rw [hc f, entries_eq hold, hnew, flatMap_append, flatMap_cons, flatMap_cons,
      countP_append, countP_append, countP_append]
    omega
  have hle : ∀ f, (headOf region length).pages.countP (·.2 = f) ≤
      (k.setManager tid manager).frames.refs f := by
    intro f
    have hparts := countP_headOf_add_restOf region length f
    have hf : (k.setManager tid manager).frames.refs f = _ := hc f
    rw [entries_eq hold] at hf
    omega
  obtain ⟨hsound, hdrops⟩ := drops_none_iff (k := k.setManager tid manager) hs hle
  refine ⟨hsound, Iff.trans (forall_congr' fun f => ?_) hdrops⟩
  rw [entries, regionsOf_unmapPages_setManager, hsame]
  rfl

theorem munmap_counted_iff (addr length : UInt64) :
    (k.munmap tid addr length).2.frames.Sound ∧
      ((k.munmap tid addr length).2.Counted tid others ↔
        MmapCall.Clean tid k (.munmap addr length)) := by
  rcases k.munmap_cases tid addr length with
    ⟨hsame, -, hshort⟩ | ⟨manager, before, region, after, hround, hm, hcut, h⟩
  · rw [hsame]
    refine ⟨hs, fun _ hround before region after hcut => ?_, fun _ => hc⟩
    have hlt := hshort hround before region after hcut
    exact ⟨fun heq => absurd hlt (heq ▸ UInt64.lt_irrefl _),
      fun hgt => absurd hlt (UInt64.lt_asymm hgt)⟩
  have hregions := regionsOf_of_some hm
  have hold := hregions.trans (cut_eq_some hcut).1
  rw [← hregions] at hcut
  rw [MmapCall.Clean, forall_prop_of_true hround, forall_cut_iff (P := fun _ region _ =>
    (region.length = pageAlignUp length → k.TablesFor region.pages) ∧ _) hcut]
  rcases h with ⟨hfull, heq⟩ | ⟨hlt, heq⟩
  · have hnot : ¬ pageAlignUp length < region.length := hfull ▸ UInt64.lt_irrefl _
    rw [heq]
    refine And.imp_right (fun hiff => hiff.trans ?_) (counted_removed_iff _ hs hc hold rfl)
    exact ⟨fun h => ⟨fun _ => h, fun hlt => absurd hlt hnot⟩, fun h => h.1 hfull⟩
  have hnot : region.length ≠ pageAlignUp length :=
    fun hfull => UInt64.lt_irrefl _ (hfull ▸ hlt)
  rw [heq]
  refine And.imp_right (fun hiff => hiff.trans ?_) (counted_split_iff _ hs hc hold rfl)
  exact ⟨fun h => ⟨fun hfull => absurd hfull hnot, fun _ => h⟩, fun h => h.2 hlt⟩

theorem cleanupFor_counted_iff :
    (k.cleanupFor tid).frames.Sound ∧
      ((k.cleanupFor tid).Counted tid others ↔ MmapCall.Clean tid k .cleanup) := by
  cases hm : k.managers tid with
  | none =>
    have hregions := regionsOf_of_none hm
    have hsame : k.cleanupFor tid = k := by simp [cleanupFor, hm]
    rw [hsame]
    refine ⟨hs, fun _ => ?_, fun _ => hc⟩
    simp [MmapCall.Clean, hregions, TablesFor]
  | some =>
    have hregions := regionsOf_of_some hm
    have heq : k.cleanupFor tid = exec unmapPage { k with managers := update k.managers tid none }
        ((k.regionsOf tid).flatMap (·.pages)) := by
      rw [hregions, exec, foldl_flatMap]
      simp only [cleanupFor, hm]
      rfl
    obtain ⟨hsound, hdrops⟩ := drops_all_iff
      (k := { k with managers := update k.managers tid none }) hs hc
    rw [heq]
    refine ⟨hsound, Iff.trans (forall_congr' fun f => ?_) (hdrops.trans (tablesFor_congr rfl rfl))⟩
    have hnone : (exec unmapPage { k with managers := update k.managers tid none }
        ((k.regionsOf tid).flatMap (·.pages))).managers tid = none := by
      rw [exec_invariant (I := fun k' => k'.managers = update k.managers tid none) rfl
        fun k' page h => (managers_unmapPage k' page).trans h]
      exact update_self ..
    rw [entries, regionsOf_of_none hnone]
    simp

end Munmap

/-! ## Mapping -/

structure Grown (k k' : Kernel) : Prop where
  managers : k'.managers = k.managers
  sound : k'.frames.Sound
  refs : ∀ f, (k'.frames.refs f = k.frames.refs f ∧ (k'.frames.Free f → k.frames.Free f)) ∨
    (k.frames.Free f ∧ ¬ k'.frames.Free f ∧ k'.frames.refs f = 2)

def Took (k k' : Kernel) : Prop :=
  ∃ t, k.frames.Free t ∧ ¬ k'.frames.Free t ∧ k'.frames.refs t = 2

theorem Grown.refl (hs : k.frames.Sound) : Grown k k := ⟨rfl, hs, fun _ => .inl ⟨rfl, id⟩⟩

variable {k'' : Kernel} {virt : UInt64}

theorem Grown.trans (h : Grown k k') (h' : Grown k' k'') : Grown k k'' := by
  refine ⟨h'.managers.trans h.managers, h'.sound, ?_⟩
  intro f
  rcases h'.refs f with ⟨hsame', hfree'⟩ | ⟨hfree', hnot', htwo'⟩
  · rcases h.refs f with ⟨hsame, hfree⟩ | ⟨hfree, hnot, htwo⟩
    · exact .inl ⟨hsame'.trans hsame, hfree ∘ hfree'⟩
    · exact .inr ⟨hfree, fun hf => hnot (hfree' hf), hsame'.trans htwo⟩
  · rcases h.refs f with ⟨-, hfree⟩ | ⟨-, hnot, -⟩
    · exact .inr ⟨hfree hfree', hnot', htwo'⟩
    · exact absurd hfree' hnot

theorem Took.grown (h : Took k k') (h' : Grown k' k'') : Took k k'' := by
  obtain ⟨t, hfree, hnot, htwo⟩ := h
  rcases h'.refs t with ⟨hsame, hback⟩ | ⟨hfree', -⟩
  · exact ⟨t, hfree, fun hf => hnot (hback hf), hsame.trans htwo⟩
  · exact absurd hfree' hnot

variable {frame : ℕ}

section

variable (hs : k.frames.Sound)
include hs

theorem getTableMut_cases (table : ℕ) (i : Fin 512) :
    ((k.mem table i).isPresent = true ∧ k.getTableMut table i = (.ok (k.mem table i).frame, k)) ∨
      ((k.mem table i).isPresent = false ∧ (∀ f, ¬ k.frames.Free f) ∧
        k.getTableMut table i = (.error .outOfMemory, k)) ∨
      ((k.mem table i).isPresent = false ∧
        ∃ l k', k.getTableMut table i = (.ok l, k') ∧ Grown k k' ∧ Took k k') := by
  cases hpres : (k.mem table i).isPresent with
  | true => exact .inl ⟨rfl, by simp [getTableMut, hpres]⟩
  | false =>
    rcases hs.allocateOne_cases with ⟨hnone, hfull⟩ | ⟨t, a, hok, hfree, hsound, hrefs, hleft⟩
    · refine .inr (.inl ⟨rfl, hfull, ?_⟩)
      simp [getTableMut, hpres, hnone]
    obtain ⟨l, k', heq, hframes, hmanagers⟩ : ∃ l k', k.getTableMut table i = (.ok l, k') ∧
        k'.frames = (a.incRef t).2 ∧ k'.managers = k.managers := by
      unfold getTableMut
      rw [hpres, hok]
      exact ⟨_, _, rfl, rfl, rfl⟩
    have hused : ¬ a.Free t := fun hf => ((hleft t).mp hf).2 rfl
    have hone : a.refs t = 1 := by rw [hrefs, if_pos rfl]
    have hlt : t < a.refcounts.counts.length := hsound.lt_length (by rw [hone]; decide)
    have hcount : ∀ f, k'.frames.refs f = if f = t then 2 else k.frames.refs f := by
      intro f
      rw [hframes, refs_incRef hsound.ready hlt, hone, hrefs]
      split <;> rfl
    have hfree' : ∀ f, k'.frames.Free f ↔ k.frames.Free f ∧ f ≠ t := by
      intro f
      rw [hframes, free_incRef, hleft]
    refine .inr (.inr ⟨rfl, l, k', heq, ⟨hmanagers, hframes ▸ hsound.incRef hused, ?_⟩, ?_⟩)
    · intro f
      by_cases hft : f = t
      · subst hft
        exact .inr ⟨hfree, fun hf => ((hfree' f).mp hf).2 rfl, by rw [hcount, if_pos rfl]⟩
      · exact .inl ⟨by rw [hcount, if_neg hft], fun hf => ((hfree' f).mp hf).1⟩
    · exact ⟨t, hfree, fun hf => ((hfree' t).mp hf).2 rfl, by rw [hcount, if_pos rfl]⟩

theorem grown_getTableMut (table : ℕ) (i : Fin 512) : Grown k (k.getTableMut table i).2 := by
  rcases getTableMut_cases hs table i with ⟨-, heq⟩ | ⟨-, -, heq⟩ | ⟨-, l, k', heq, hgrown, -⟩
  · rw [heq]
    exact .refl hs
  · rw [heq]
    exact .refl hs
  · rw [heq]
    exact hgrown

omit hs in
theorem Grown.andThen {α β : Type} {r : Except MmapError α × Kernel}
    {rest : α → Kernel → Except MmapError β × Kernel} (h : Grown k r.2)
    (hrest : ∀ a, Grown r.2 (rest a r.2).2) : Grown k (Kernel.andThen r rest).2 := by
  obtain ⟨res, k'⟩ := r
  cases res with
  | error => exact h
  | ok a => exact h.trans (hrest a)

omit hs in
theorem andThen_of_present {β : Type} {table : ℕ} {i : Fin 512}
    (h : (k.mem table i).isPresent = true) (rest : ℕ → Kernel → Except MmapError β × Kernel) :
    andThen (k.getTableMut table i) rest = rest (k.mem table i).frame k := by
  simp [getTableMut, h, Kernel.andThen]

theorem andThen_of_missing {β : Type} {table : ℕ} {i : Fin 512}
    (h : (k.mem table i).isPresent = false) {rest : ℕ → Kernel → Except MmapError β × Kernel}
    (hrest : ∀ l k', k'.frames.Sound → Grown k' (rest l k').2) :
    (andThen (k.getTableMut table i) rest = (.error .outOfMemory, k) ∧ ∀ f, ¬ k.frames.Free f) ∨
      (Grown k (andThen (k.getTableMut table i) rest).2 ∧
        Took k (andThen (k.getTableMut table i) rest).2) := by
  rcases getTableMut_cases hs table i with
    ⟨hpres, -⟩ | ⟨-, hfull, heq⟩ | ⟨-, l, k', heq, hgrown, htook⟩
  · rw [h] at hpres
    cases hpres
  · rw [heq]
    exact .inl ⟨rfl, hfull⟩
  · rw [heq]
    have hend := hrest l k' hgrown.sound
    exact .inr ⟨hgrown.trans hend, htook.grown hend⟩

omit hs in
theorem lastTable_eq_none_iff : k.lastTable virt = none ↔
      (k.mem k.l4 (index 4 virt)).isPresent = false ∨
      (k.mem (k.mem k.l4 (index 4 virt)).frame (index 3 virt)).isPresent = false ∨
      (k.mem (k.mem (k.mem k.l4 (index 4 virt)).frame (index 3 virt)).frame
        (index 2 virt)).isPresent = false := by
  simp only [lastTable]
  split_ifs with h
  · simp [h]
  · simp only [true_iff, ← Bool.not_eq_true]
    tauto

omit hs in
theorem mapFrame_of_lastTable {l1 : ℕ} (h : k.lastTable virt = some l1) (frame : ℕ)
    (flags : BitVec 64) : k.mapFrame virt frame flags = (.ok (), { k with
      mem := k.mem.write l1 (index 1 virt) (.setAddr (frameAddr frame) flags) }) := by
  simp only [lastTable] at h
  split_ifs at h with hall
  cases h
  obtain ⟨h4, h3, h2⟩ := hall
  rw [mapFrame, andThen_of_present h4, andThen_of_present h3, andThen_of_present h2]

theorem mapFrame_of_no_table (h : k.lastTable virt = none) (frame : ℕ) (flags : BitVec 64) :
    (k.mapFrame virt frame flags = (.error .outOfMemory, k) ∧ ∀ f, ¬ k.frames.Free f) ∨
      (Grown k (k.mapFrame virt frame flags).2 ∧ Took k (k.mapFrame virt frame flags).2) := by
  -- What follows a table that was taken only takes more.
  have hwrite : ∀ l1 (k' : Kernel), k'.frames.Sound → Grown k' { k' with
      mem := k'.mem.write l1 (index 1 virt) (.setAddr (frameAddr frame) flags) } :=
    fun l1 k' hs' => ⟨rfl, hs', fun _ => .inl ⟨rfl, id⟩⟩
  have hlast : ∀ l2 (k' : Kernel), k'.frames.Sound → Grown k' (Kernel.andThen
      (k'.getTableMut l2 (index 2 virt)) fun l1 k => (.ok (), { k with
        mem := k.mem.write l1 (index 1 virt) (.setAddr (frameAddr frame) flags) })).2 := by
    intro l2 k' hs'
    have hgrown := grown_getTableMut hs' l2 (index 2 virt)
    exact hgrown.andThen fun l1 => hwrite l1 _ hgrown.sound
  rw [lastTable_eq_none_iff] at h
  unfold mapFrame
  cases h4 : (k.mem k.l4 (index 4 virt)).isPresent with
  | false =>
    refine andThen_of_missing hs h4 fun l3 k' hs' => ?_
    have hgrown := grown_getTableMut hs' l3 (index 3 virt)
    exact hgrown.andThen fun l2 => hlast l2 _ hgrown.sound
  | true =>
    rw [andThen_of_present h4]
    cases h3 : (k.mem (k.mem k.l4 (index 4 virt)).frame (index 3 virt)).isPresent with
    | false => exact andThen_of_missing hs h3 hlast
    | true =>
      rw [andThen_of_present h3]
      simp only [h4, h3, Bool.true_eq_false, false_or] at h
      exact andThen_of_missing hs h hwrite

/-! ## Faults -/

theorem Counted.not_of_took (hc : k.Counted tid others)
    (hregions : k'.regionsOf tid = k.regionsOf tid) {t : ℕ} (hfree : k.frames.Free t)
    (htwo : k'.frames.refs t = 2) : ¬ k'.Counted tid others := by
  intro hc'
  have hbefore := hc t
  have hafter := hc' t
  rw [hs.free t hfree] at hbefore
  rw [htwo, entries_congr hregions] at hafter
  omega

theorem mapNew_counted_iff (hc : k.Counted tid others) {page : UInt64}
    (hframe : k.frames.refs frame ≠ 0) (flags : BitVec 64) :
    (k.mapNew page frame flags).2.frames.Sound ∧
      ((k.mapNew page frame flags).2.Counted tid others ↔ (k.lastTable page).isSome) ∧
      ((k.lastTable page).isSome → (k.mapNew page frame flags).1 = true) := by
  cases htable : k.lastTable page with
  | some l1 =>
    have heq : k.mapNew page frame flags = (true, { k with
        mem := k.mem.write l1 (index 1 page) (.setAddr (frameAddr frame) flags) }) := by
      simp [mapNew, mapFrame_of_lastTable htable]
    rw [heq]
    exact ⟨hs, ⟨fun _ => rfl, fun _ => hc⟩, fun _ => rfl⟩
  | none =>
    have hnot : (k.mapNew page frame flags).2.frames.Sound ∧
        ¬ (k.mapNew page frame flags).2.Counted tid others := by
      rcases mapFrame_of_no_table hs htable frame flags with
        ⟨heq, -⟩ | ⟨hgrown, t, hfree, -, htwo⟩
      · -- The entry stays, and its reference goes.
        have hnew : k.mapNew page frame flags = (false, k.decRef frame) := by
          simp [mapNew, heq]
        rw [hnew]
        refine ⟨hs.freeFrame frame, ?_⟩
        intro hc'
        have hbefore := hc frame
        have hafter : (k.frames.freeFrame frame).2.refs frame =
          k.entries tid frame + others frame := hc' frame
        rw [hs.refs_freeFrame, if_pos rfl] at hafter
        omega
      · have hne : t ≠ frame := by
          rintro rfl
          exact hframe (hs.free t hfree)
        cases hres : k.mapFrame page frame flags with
        | mk res k' =>
          rw [hres] at hgrown htwo
          have hregions : k'.regionsOf tid = k.regionsOf tid := regionsOf_congr hgrown.managers
          cases res with
          | error =>
            have hnew : k.mapNew page frame flags = (false, k'.decRef frame) := by
              simp [mapNew, hres]
            rw [hnew]
            refine ⟨hgrown.sound.freeFrame frame, hc.not_of_took hs hregions hfree ?_⟩
            change (k'.frames.freeFrame frame).2.refs t = 2
            rw [hgrown.sound.refs_freeFrame, if_neg hne, htwo]
          | ok =>
            have hnew : k.mapNew page frame flags = (true, k') := by
              simp [mapNew, hres]
            rw [hnew]
            exact ⟨hgrown.sound, hc.not_of_took hs hregions hfree htwo⟩
    exact ⟨hnot.1, ⟨fun hc' => absurd hc' hnot.2, fun h => by cases h⟩, fun h => by cases h⟩

end

def KeepsBy (tid : TaskId) (others : ℕ → ℕ) (k : Kernel) (out : Bool × Kernel) : Prop :=
  out.2.Counted tid others ∧ (out.1 = false →
    out.2.regionsOf tid = k.regionsOf tid ∧ ∀ f, out.2.frames.refs f = k.frames.refs f)

theorem keepsBy_same (hc : k.Counted tid others) (b : Bool) : KeepsBy tid others k (b, k) :=
  ⟨hc, fun _ => ⟨rfl, fun _ => rfl⟩⟩

theorem keepsBy_mapNew_iff {k₁ : Kernel} (hs : k₁.frames.Sound) (hc : k₁.Counted tid others)
    {page : UInt64} (hframe : k₁.frames.refs frame ≠ 0) (flags : BitVec 64) :
    KeepsBy tid others k (k₁.mapNew page frame flags) ↔ (k₁.lastTable page).isSome := by
  obtain ⟨-, hiff, htrue⟩ := mapNew_counted_iff hs hc hframe flags
  constructor
  · exact fun h => hiff.mp h.1
  intro htable
  refine ⟨hiff.mpr htable, fun hfalse => ?_⟩
  rw [htrue htable] at hfalse
  cases hfalse

section Fault

variable {manager : MmapManager} {before after : List MmapRegion} {region : MmapRegion}
  {page : UInt64}

theorem Counted.refs_pos (hc : k.Counted tid others)
    (hold : k.regionsOf tid = before ++ region :: after)
    (hpage : region.pages.lookup page = some frame) : 0 < k.frames.refs frame := by
  have hins := region.pages.countP_insert page (frame + 1) frame
  rw [if_pos hpage, if_neg (Nat.succ_ne_self frame).symm] at hins
  rw [hc frame, entries_eq hold]
  omega

section

variable (hs : k.frames.Sound) (hc : k.Counted tid others)
include hs hc

theorem makeWritable_keeps_iff (frame : ℕ) : (k.makeWritable region page frame).2.frames.Sound ∧
      (KeepsBy tid others k (k.makeWritable region page frame) ↔
        ∀ new, k.frames.allocateOne.1 = .ok new → (k.lastTable page).isSome) := by
  cases htable : k.lastTable page with
  | some l1 =>
    have heq : k.makeWritable region page frame = (true, { k with
        mem := k.mem.write l1 (index 1 page)
          (.setAddr (frameAddr frame) (region.toPteFlags ||| Flag.writable)) }) := by
      simp [makeWritable, mapFrame_of_lastTable htable]
    rw [heq]
    exact ⟨hs, fun _ _ _ => rfl, fun _ => ⟨hc, fun h => by cases h⟩⟩
  | none =>
    rcases mapFrame_of_no_table hs htable frame (region.toPteFlags ||| Flag.writable) with
      ⟨heq, hfull⟩ | ⟨hgrown, t, hfree, -, htwo⟩
    · have hsame : k.makeWritable region page frame = (false, k) := by
        simp [makeWritable, heq]
      rw [hsame]
      refine ⟨hs, fun _ new hnew => ?_, fun _ => keepsBy_same hc false⟩
      exact absurd (free_of_allocateOne hs.valid hnew) (hfull new)
    have hsnd : (k.makeWritable region page frame).2 =
        (k.mapFrame page frame (region.toPteFlags ||| Flag.writable)).2 := by
      unfold makeWritable
      split <;> simp_all
    have hnot := hc.not_of_took hs (regionsOf_congr hgrown.managers) hfree htwo
    refine ⟨hsnd ▸ hgrown.sound, fun h => absurd h.1 (hsnd ▸ hnot), fun h => ?_⟩
    rcases hs.allocateOne_cases with ⟨-, hfull⟩ | ⟨new, a, hok, -⟩
    · exact absurd hfree (hfull t)
    · exact absurd (h new (by rw [hok])) (by simp)

variable (hold : k.regionsOf tid = before ++ region :: after)
include hold

/-- A frame that was free goes into the region, in place of the one that was there. -/
theorem mapNew_keeps_iff {new : ℕ} (hfree : k.frames.Free new)
    {k₁ : Kernel} (hs₁ : k₁.frames.Sound)
    (hnew : k₁.regionsOf tid =
      before ++ { region with pages := region.pages.insert page new } :: after)
    (hrefs : ∀ f, k₁.frames.refs f + (if region.pages.lookup page = some f then 1 else 0) =
      k.frames.refs f + if f = new then 1 else 0) (flags : BitVec 64) :
    (k₁.mapNew page new flags).2.frames.Sound ∧
      (KeepsBy tid others k (k₁.mapNew page new flags) ↔ (k₁.lastTable page).isSome) := by
  have hzero := hs.free new hfree
  have hc₁ : k₁.Counted tid others := by
    intro f
    have hins := region.pages.countP_insert page new f
    have hold := hc f
    have hf := hrefs f
    rw [entries_eq ‹_›] at hold
    rw [entries_eq hnew]
    dsimp only
    omega
  have hnew₁ : k₁.frames.refs new ≠ 0 := by
    have hf := hrefs new
    have hother : region.pages.lookup page ≠ some new := fun h => (hc.refs_pos hold h).ne' hzero
    rw [if_neg hother, if_pos rfl] at hf
    omega
  exact ⟨(mapNew_counted_iff hs₁ hc₁ hnew₁ flags).1, keepsBy_mapNew_iff hs₁ hc₁ hnew₁ flags⟩

theorem copyOnWrite_keeps_iff (hpage : region.pages.lookup page = some frame) :
    (k.copyOnWrite tid manager before after region page frame).2.frames.Sound ∧
      (KeepsBy tid others k (k.copyOnWrite tid manager before after region page frame) ↔
        ∀ new, k.frames.allocateOne.1 = .ok new →
          ({ k with mem := update k.mem new (k.mem frame) }.lastTable page).isSome) := by
  rcases hs.allocateOne_cases with ⟨hnone, -⟩ | ⟨new, a, hok, hfree, hsound, hrefs, -⟩
  · simp [copyOnWrite, hnone, hs, keepsBy_same hc]
  have hpos := hc.refs_pos hold hpage
  have hne : frame ≠ new := fun h => hpos.ne' (h ▸ hs.free new hfree)
  simp only [copyOnWrite, hok, Except.ok.injEq, forall_eq']
  refine mapNew_keeps_iff hs hc hold hfree (hsound.freeFrame frame)
    (regionsOf_setManager _ _) (fun f => ?_) _
  change (a.freeFrame frame).2.refs f + _ = _
  rw [hsound.refs_freeFrame, hrefs, hrefs, if_neg hne, hpage]
  by_cases hff : f = frame
  · subst hff
    rw [if_pos rfl, if_pos rfl, if_neg hne]
    omega
  · rw [if_neg hff, if_neg fun h => hff (Option.some.inj h).symm]
    by_cases hfn : f = new
    · rw [if_pos hfn, if_pos hfn, hfn, hs.free new hfree]
    · rw [if_neg hfn, if_neg hfn]

theorem demandPage_keeps_iff (hpage : region.pages.lookup page = none)
    (files : String → List UInt8) :
    (k.demandPage tid manager before after region page files).2.frames.Sound ∧
      (KeepsBy tid others k (k.demandPage tid manager before after region page files) ↔
        ∀ new, k.frames.allocateOne.1 = .ok new →
          let filled := update k.mem new
            (region.backing.fill files (page - region.start))
          ({ k with mem := filled }.lastTable page).isSome) := by
  rcases hs.allocateOne_cases with ⟨hnone, -⟩ | ⟨new, a, hok, hfree, hsound, hrefs, -⟩
  · simp [demandPage, hnone, hs, keepsBy_same hc]
  simp only [demandPage, hok, Except.ok.injEq, forall_eq']
  refine mapNew_keeps_iff hs hc hold hfree hsound (regionsOf_setManager _ _) (fun f => ?_) _
  change a.refs f + _ = _
  rw [hrefs, hpage, if_neg (Option.some_ne_none f).symm]
  by_cases hfn : f = new
  · rw [if_pos hfn, if_pos hfn, hfn, hs.free new hfree]
  · rw [if_neg hfn, if_neg hfn]

end

end Fault

theorem handleMmapFault_of_allowed {manager : MmapManager} {region : MmapRegion}
    (hm : k.managers tid = some manager) {virt : UInt64} {write : Bool}
    (hcut : cut (·.contains virt) manager.regions = some (before, region, after))
    (hread : write = false → region.prot &&& protRead ≠ 0)
    (hwrite : write = true → region.prot &&& protWrite ≠ 0) (files : String → List UInt8) :
    k.handleMmapFault tid virt write files =
      match region.pages.lookup (virt &&& ~~~0xfff) with
      | some frame =>
        if write then
          if region.isPrivate then
            k.copyOnWrite tid manager before after region (virt &&& ~~~0xfff) frame
          else k.makeWritable region (virt &&& ~~~0xfff) frame
        else (true, k)
      | none => k.demandPage tid manager before after region (virt &&& ~~~0xfff) files := by
  have hread' : ¬ (write = false ∧ region.prot &&& protRead = 0) := fun h => hread h.1 h.2
  have hwrite' : ¬ (write = true ∧ region.prot &&& protWrite = 0) := fun h => hwrite h.1 h.2
  simp only [handleMmapFault, hm, hcut, hread', hwrite', if_false]
  cases region.pages.lookup (virt &&& ~~~0xfff) with
  | none => rfl
  | some =>
    cases write with
    | false | true => simp

theorem handleMmapFault_keeps_iff (hs : k.frames.Sound) (hc : k.Counted tid others)
    (virt : UInt64) (write : Bool) (files : String → List UInt8) :
    (k.handleMmapFault tid virt write files).2.frames.Sound ∧
      (KeepsBy tid others k (k.handleMmapFault tid virt write files) ↔
        k.FaultClean tid virt write files) := by
  have hnothing : ∀ b, k.handleMmapFault tid virt write files = (b, k) →
      k.FaultClean tid virt write files →
      (k.handleMmapFault tid virt write files).2.frames.Sound ∧
        (KeepsBy tid others k (k.handleMmapFault tid virt write files) ↔
          k.FaultClean tid virt write files) := by
    intro b heq hclean
    rw [heq]
    exact ⟨hs, fun _ => hclean, fun _ => keepsBy_same hc b⟩
  cases hm : k.managers tid with
  | none =>
    refine hnothing false (by simp [handleMmapFault, hm]) ?_
    simp [FaultClean, regionsOf_of_none hm, cut]
  | some manager =>
    have hregions := regionsOf_of_some hm
    cases hcut : cut (·.contains virt) manager.regions with
    | none =>
      refine hnothing false (by simp [handleMmapFault, hm, hcut]) ?_
      simp [FaultClean, hregions, hcut]
    | some c =>
      obtain ⟨before, region, after⟩ := c
      have hold := hregions.trans (cut_eq_some hcut).1
      have hclean : k.FaultClean tid virt write files ↔
          k.RegionClean region (virt &&& ~~~0xfff) write files :=
        forall_cut_iff (P := fun _ region _ =>
          k.RegionClean region (virt &&& ~~~0xfff) write files) (hregions.symm ▸ hcut)
      rw [hclean] at hnothing ⊢
      by_cases hread : write = false ∧ region.prot &&& protRead = 0
      · refine hnothing false (by simp [handleMmapFault, hm, hcut, hread]) ?_
        exact fun _ hallowed => absurd hread.2 (hallowed hread.1)
      by_cases hwrite : write = true ∧ region.prot &&& protWrite = 0
      · refine hnothing false (by simp [handleMmapFault, hm, hcut, hwrite]) ?_
        exact fun hallowed => absurd hwrite.2 (hallowed hwrite.1)
      have hread' : write = false → region.prot &&& protRead ≠ 0 := fun h hp => hread ⟨h, hp⟩
      have hwrite' : write = true → region.prot &&& protWrite ≠ 0 := fun h hp => hwrite ⟨h, hp⟩
      rw [handleMmapFault_of_allowed hm hcut hread' hwrite', RegionClean,
        forall_prop_of_true hwrite', forall_prop_of_true hread']
      cases hpage : region.pages.lookup (virt &&& ~~~0xfff) with
      | none => exact demandPage_keeps_iff hs hc hold hpage files
      | some frame =>
        cases write with
        | false =>
          refine ⟨hs, fun _ _ _ h => ?_, fun _ => keepsBy_same hc true⟩
          cases h
        | true =>
          simp only [if_true, forall_const]
          cases hprivate : region.isPrivate with
          | true => exact copyOnWrite_keeps_iff hs hc hold hpage
          | false => exact makeWritable_keeps_iff hs hc frame

/-! ## Runs -/

theorem mprotect_snd (k : Kernel) (tid : TaskId) (addr length : UInt64) (prot : UInt32) :
    (k.mprotect tid addr length prot).2.frames = k.frames ∧
      ((k.mprotect tid addr length prot).2.regionsOf tid).flatMap (·.pages) =
        (k.regionsOf tid).flatMap (·.pages) := by
  simp only [mprotect]
  split_ifs
  · exact ⟨rfl, rfl⟩
  split
  · exact ⟨rfl, rfl⟩
  rename_i manager hm
  split
  · exact ⟨rfl, rfl⟩
  rename_i before region after hcut
  split_ifs
  · exact ⟨rfl, rfl⟩
  let k₁ := k.setManager tid
    { manager with regions := before ++ { region with prot } :: after }
  have hkeep : ∀ (k' : Kernel) page, k'.frames = k.frames ∧ k'.managers = k₁.managers →
      (k'.protectPage { region with prot }.toPteFlags page).frames = k.frames ∧
        (k'.protectPage { region with prot }.toPteFlags page).managers = k₁.managers := by
    rintro k' page ⟨hframes, hmanagers⟩
    simp only [protectPage]
    split
    · exact ⟨hframes, hmanagers⟩
    · exact ⟨hframes, hmanagers⟩
  let I (k' : Kernel) := k'.frames = k.frames ∧ k'.managers = k₁.managers
  obtain ⟨hframes, hmanagers⟩ : I (exec _ k₁ region.pages) := exec_invariant ⟨rfl, rfl⟩ hkeep
  refine ⟨hframes, ?_⟩
  rw [regionsOf_congr hmanagers, regionsOf_setManager, regionsOf_of_some hm, (cut_eq_some hcut).1]
  simp

theorem keeps_iff_clean (hs : k.frames.Sound) (hc : k.Counted tid others) (call : MmapCall) :
    (k.step tid call).frames.Sound ∧ (call.Keeps tid others k ↔ call.Clean tid k) := by
  cases call with
  | mmap addr length prot flags fd offset path files =>
    have hsame : (k.mmap tid addr length prot flags fd offset path files).2.frames = k.frames ∧
        (k.mmap tid addr length prot flags fd offset path files).2.regionsOf tid =
          k.regionsOf tid := by
      rcases k.mmap_snd tid addr length prot flags fd offset path files with heq | heq
      · rw [heq]
        exact ⟨rfl, rfl⟩
      rw [heq]
      cases hm : k.managers tid with
      | none => simp [getManagerMut, regionsOf, setManager, hm]
      | some => simp [getManagerMut, hm]
    refine ⟨hsame.1 ▸ hs, fun _ => trivial, fun _ => ⟨?_, trivial⟩⟩
    exact hc.congr hsame.2 fun f => by rw [Kernel.step, hsame.1]
  | munmap addr length =>
    obtain ⟨hsound, hiff⟩ := munmap_counted_iff hs hc addr length
    exact ⟨hsound, and_iff_left trivial |>.trans hiff⟩
  | mprotect addr length prot =>
    obtain ⟨hframes, hpages⟩ := mprotect_snd k tid addr length prot
    refine ⟨hframes ▸ hs, fun _ => trivial, fun _ => ⟨?_, trivial⟩⟩
    intro f
    rw [Kernel.step, hframes, hc f, entries, entries, hpages]
  | fault virt write files => exact handleMmapFault_keeps_iff hs hc virt write files
  | cleanup =>
    obtain ⟨hsound, hiff⟩ := cleanupFor_counted_iff hs hc
    exact ⟨hsound, and_iff_left trivial |>.trans hiff⟩

/-- **The references on the frames.**  From a state in which each entry of the page maps of a
process has one reference, a run keeps that, and its failing faults change nothing, exactly if every
call is clean. -/
theorem keeps_along_iff (hs : k.frames.Sound) (hc : k.Counted tid others) (calls : List MmapCall) :
    Along (Kernel.step tid) (fun k call => call.Keeps tid others k) k calls ↔
      Along (Kernel.step tid) (fun k call => call.Clean tid k) k calls := by
  refine along_congr (I := fun k => k.frames.Sound ∧ k.Counted tid others) ?_ ?_ ⟨hs, hc⟩
  · rintro k call ⟨hs, hc⟩ hkeeps
    exact ⟨(keeps_iff_clean hs hc call).1, hkeeps.1⟩
  · rintro k call ⟨hs, hc⟩
    exact (keeps_iff_clean hs hc call).2

theorem Fresh.clean (h : k.Fresh tid) (call : MmapCall) : call.Clean tid k := by
  have hnil : k.regionsOf tid = [] := by
    rcases h.cases with hm | hm
    · exact regionsOf_of_none hm
    · exact regionsOf_of_some hm
  cases call with
  | mmap | mprotect => trivial
  | munmap =>
    intro _ before region after hcut
    rw [hnil] at hcut
    cases hcut
  | fault =>
    intro before region after hcut
    rw [hnil] at hcut
    cases hcut
  | cleanup =>
    rw [MmapCall.Clean, hnil]
    trivial

theorem keeps_along_boot {frames : FrameAllocator} (hs : frames.Sound) (mem : PhysMem) (l4 : ℕ)
    (tid : TaskId) (calls : List MmapCall) :
    Along (Kernel.step tid) (fun k call => call.Keeps tid frames.refs k) (boot frames mem l4)
      calls := by
  let I (k : Kernel) := k.frames.Sound ∧ k.Counted tid frames.refs ∧ k.Fresh tid
  have hboot : I (boot frames mem l4) :=
    ⟨hs, fun f => (Nat.zero_add _).symm, fun manager hm => by cases hm⟩
  refine along_true.imp hboot ?_ ?_
  · rintro k call ⟨hs, hc, hfresh⟩ -
    obtain ⟨hs', hiff⟩ := keeps_iff_clean hs hc call
    exact ⟨hs', (hiff.mpr (hfresh.clean call)).1, hfresh.step call⟩
  · rintro k call ⟨hs, hc, hfresh⟩ -
    exact (keeps_iff_clean hs hc call).2.mpr (hfresh.clean call)

def withFrames (stop : UInt64) (mem : PhysMem) : Kernel :=
  { withRegions [⟨0x700000000000, 0x2000, protRead ||| protWrite, mapPrivate, .anonymous, []⟩] with
    frames := (FrameAllocator.init ⟨⟨512, false⟩, .withMaxFrames 512, false, {}, 0, 0⟩
      [⟨0, stop, .usable⟩]).markHeapReady
    mem
    l4 := 300 }

def oneWay : PhysMem := fun table _ =>
  if 300 ≤ table ∧ table < 303 then .setAddr (frameAddr (table + 1)) Flag.present else 0

/-- With the tables there, a fault and the release of the page keep the counts. -/
theorem keeps_along_sample : ∃ k calls, k = withFrames 0x4000 oneWay ∧
    calls = [MmapCall.fault 0x700000000008 true fun _ => [], .munmap 0x700000000000 0x2000] ∧
    Along (Kernel.step 1) (fun k call => call.Keeps 1 (fun _ => 0) k) k calls := by
  refine ⟨_, _, rfl, rfl, (keeps_along_iff (valid_init _ rfl).sound_markHeapReady
    (fun f => refs_markHeapReady _ f) _).mpr ⟨?_, ?_, trivial⟩⟩
  · have hcut : cut (·.contains 0x700000000008) ((withFrames 0x4000 oneWay).regionsOf 1) =
        some ([], _, []) := rfl
    refine (forall_cut_iff hcut).mpr ?_
    intro _ _ new hnew
    have hzero : (withFrames 0x4000 oneWay).frames.allocateOne.1 = .ok 0 := by decide +kernel
    obtain rfl := Except.ok.inj (hnew.symm.trans hzero)
    change (lastTable _ _).isSome = true
    decide +kernel
  · intro _
    have hcut : cut (·.start = 0x700000000000) ((Kernel.step 1 (withFrames 0x4000 oneWay)
        (.fault 0x700000000008 true fun _ => [])).regionsOf 1) = some ([], _, []) := rfl
    refine (forall_cut_iff hcut).mpr ⟨fun _ => ?_, fun hlt => absurd hlt (by decide)⟩
    exact ⟨by decide +kernel, trivial⟩

/-- One frame is free, and no tables are there: the fault fails, its page stays in the page map, and
the frame is free again. -/
theorem failed_fault_stays : ∃ k k' : Kernel, k = withFrames 0x1000 (fun _ _ => 0) ∧
    k.handleMmapFault 1 0x700000000008 true (fun _ => []) = (false, k') ∧
    (k.regionsOf 1).map (·.pages) = [[]] ∧
    (k'.regionsOf 1).map (·.pages) = [[(0x700000000000, 0)]] ∧
    k'.frames.refs 0 = 0 ∧ k'.frames.allocateOne.1 = .ok 0 :=
  ⟨_, _, rfl, Prod.ext (by decide +kernel) rfl, by decide +kernel, by decide +kernel,
    by decide +kernel, by decide +kernel⟩

end Kernel

end IonaOs.Process
