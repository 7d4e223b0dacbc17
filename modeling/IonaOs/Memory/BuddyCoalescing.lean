import IonaOs.Memory.BuddyPartition

/-!
# Merging in the buddy allocator is complete
-/

namespace IonaOs.Memory

open Lib List FreeLists

namespace Heap

def Coalesced (h : Heap) : Prop :=
  ∀ o, o + 1 < h.buddy.config.maxOrder → ∀ a ∈ h.buddy.free o,
    h.buddy.config.buddyAddr a o ∉ h.buddy.free o

def FreePage (h : Heap) (p : ℕ) : Prop := ∃ x ∈ h.freeExtents, x.Holds h.buddy.config p

variable {cfg : BuddyConfig} {regions : List BuddyRegion} {r : BuddyRegion} {h : Heap}

theorem disjoint_singleton (cfg : BuddyConfig) (r : BuddyRegion) : BuddyDisjoint cfg [r] :=
  pairwise_singleton _ _

/-! ## No two buddies -/

def IsReduced (h : Heap) : Prop := Reduced h.buddy.config.maxOrder {b | b ∈ h.buddy.freeBlocks}

section

variable (hc : cfg.Sound)
include hc

theorem isReduced_start (hr : r.Valid cfg) : (start cfg [r]).IsReduced := by
  have hbase := Nat.div_mul_cancel hr.aligned
  have hspace : (r.base / cfg.pageSize + r.pages) * cfg.pageSize ≤ 2 ^ 64 := by
    rw [Nat.add_mul, hbase]
    exact hr.inSpace
  have hnone : Aligned cfg fun _ => [] := fun _ _ _ ha => by cases ha
  obtain ⟨blocks, hlaid⟩ := BuddyConfig.exists_laid hc hnone le_rfl hspace
  rw [hbase] at hlaid
  have hperm : (start cfg [r]).buddy.freeBlocks.Perm blocks := by
    have hlist := hlaid.perm
    have hnil : FreeLists.blocks cfg (fun _ => []) = [] := freeBlocks_new cfg
    rw [hnil, append_nil] at hlist
    exact hlist
  have hset : {b | b ∈ (start cfg [r]).buddy.freeBlocks} = {b | b ∈ blocks} := by
    ext b
    exact hperm.mem_iff
  rw [IsReduced, hset]
  exact hlaid.reduced

section

variable (hd : BuddyDisjoint cfg regions) (hv : Valid cfg regions h)
include hd hv

omit hc in
theorem Valid.notMem_free {b c : Block} (hb : b ∈ h.liveBlocks) (hc : c ∈ h.buddy.freeBlocks)
    {p : ℕ} (hp : p ∈ b) : p ∉ c := by
  intro hpc
  have hcover := hv.cover p
  have hle := countP_le_one hd p
  have hlive : 0 < Block.cover h.liveBlocks p := Block.cover_pos_iff.mpr ⟨b, hb, hp⟩
  have hfree : 0 < Block.cover h.buddy.freeBlocks p := Block.cover_pos_iff.mpr ⟨c, hc, hpc⟩
  simp only [Block.cover, Block.weigh_append] at hcover hlive hfree
  omega

theorem IsReduced.alloc (hred : h.IsReduced) (order : ℕ) : (h.step (.alloc order)).IsReduced := by
  have hv' := hv.alloc hc order
  obtain hstep | ⟨s', taken, whole, halves, rest, -, hstep, ha⟩ := hv.alloc_cases hc order <;>
    rw [hstep] at hv' ⊢
  · exact hred
  obtain rfl := hv.config_eq
  have htaken : taken ∈ liveBlocks ⟨s', .ofBlock h.buddy.config taken :: h.live⟩ := by
    simp only [liveBlocks, ha.config, map_cons, Extent.block_ofBlock hc]
    exact mem_cons_self ..
  -- A half that was cut off has the block that is taken in its buddy.
  have hhalf : ∀ c ∈ halves, c.buddy ∉ s'.freeBlocks := by
    intro c hmem hfree
    exact hv'.notMem_free hd htaken hfree taken.first_mem (ha.buddies c hmem _ taken.first_mem)
  refine ⟨?_, ?_⟩
  · intro b hb
    exact ((mem_blocks_iff (hv'.config_eq.symm ▸ hc) hv'.aligned).mp hb).1
  intro b hb hlt hbuddy
  rcases mem_append.mp (ha.after.mem_iff.mp hb) with hmem | hmem
  · exact hhalf b hmem hbuddy
  rcases mem_append.mp (ha.after.mem_iff.mp hbuddy) with hmem' | hmem'
  · refine hhalf b.buddy hmem' ?_
    rwa [Block.buddy_buddy]
  · have hold : ∀ c ∈ rest, c ∈ h.buddy.freeBlocks := fun c hc =>
      ha.before.mem_iff.mpr (mem_cons_of_mem _ hc)
    exact hred.buddy b (hold b hmem) (ha.config ▸ hlt) (hold b.buddy hmem')

theorem IsReduced.free (hred : h.IsReduced) {x : Extent} (hx : x ∈ h.live) :
    (h.step (.free x)).IsReduced := by
  obtain ⟨b, rfl, -⟩ := hv.live x hx
  obtain rfl := hv.config_eq
  obtain ⟨s', merged, buddies, rest, hstep, -, hf⟩ := hv.exists_freed hc hd hx
  rw [hstep]
  have hold : ∀ c ∈ rest, c ∈ h.buddy.freeBlocks := fun c hc =>
    hf.before.mem_iff.mpr (mem_append_right _ hc)
  refine ⟨?_, ?_⟩
  · intro c hc'
    change c.order < s'.config.maxOrder
    rw [hf.config]
    rcases mem_cons.mp (hf.after.mem_iff.mp hc') with rfl | hmem
    · exact hf.order_lt
    · exact hred.order_lt c (hold c hmem)
  intro c hc' hlt hbuddy
  change c.order + 1 < s'.config.maxOrder at hlt
  rw [hf.config] at hlt
  rcases mem_cons.mp (hf.after.mem_iff.mp hc') with rfl | hmem
  · rcases mem_cons.mp (hf.after.mem_iff.mp hbuddy) with heq | hmem'
    · exact c.buddy_ne heq
    · exact hf.stops hlt hmem'
  · rcases mem_cons.mp (hf.after.mem_iff.mp hbuddy) with rfl | hmem'
    · refine hf.stops hlt ?_
      rwa [Block.buddy_buddy]
    · exact hred.buddy c (hold c hmem) hlt (hold _ hmem')

omit hv in
omit hd in
theorem Reached.valid_and_isReduced (hr : r.Valid cfg) (hreach : Reached cfg [r] h) :
    Valid cfg [r] h ∧ h.IsReduced := by
  have hd := disjoint_singleton cfg r
  obtain ⟨calls, hcalls, rfl⟩ := hreach
  refine hcalls.invariant (I := fun h => Valid cfg [r] h ∧ h.IsReduced)
    ⟨valid_start hc (forall_mem_singleton.mpr hr), isReduced_start hc hr⟩ ?_
  rintro h call ⟨hv, hred⟩ hcall
  refine ⟨hv.step hc hd hcall, ?_⟩
  cases call with
  | alloc order => exact hred.alloc hc hd hv order
  | free => exact hred.free hc hd hv hcall

omit hd in
theorem IsReduced.coalesced (hred : h.IsReduced) : h.Coalesced := by
  obtain rfl := hv.config_eq
  intro o ho a ha hbuddy
  obtain ⟨b, rfl, rfl, hspace⟩ := hv.aligned o (by omega) a ha
  rw [BuddyConfig.buddyAddr_addr hc hspace ho] at hbuddy
  refine hred.buddy b ?_ ho ?_
  · exact (mem_blocks_iff hc hv.aligned).mpr ⟨Nat.lt_of_succ_lt ho, ha⟩
  · exact (mem_blocks_iff hc hv.aligned).mpr ⟨Nat.lt_of_succ_lt ho, hbuddy⟩

/-! ## The free blocks as a tiling -/

omit hc in
theorem Valid.tiling :
    Tiling {b | b ∈ h.buddy.freeBlocks} {p | ∃ b ∈ h.buddy.freeBlocks, p ∈ b} := by
  refine .of_cover ?_ ?_
  · intro p hp
    have hpos := Block.cover_pos_iff.mpr hp
    have hcover := hv.cover p
    have hle := countP_le_one hd p
    simp only [Block.cover, Block.weigh_append] at hcover hpos ⊢
    omega
  · intro p hp
    exact Nat.eq_zero_of_not_pos fun hpos => hp (Block.cover_pos_iff.mp hpos)

omit hd in
theorem Valid.freePage_iff {p : ℕ} : h.FreePage p ↔ ∃ b ∈ h.buddy.freeBlocks, p ∈ b := by
  obtain rfl := hv.config_eq
  rw [← map_block_freeExtents]
  constructor
  · rintro ⟨x, hx, hp⟩
    exact ⟨_, mem_map_of_mem hx, (hv.holds_iff_mem_block hc (mem_append_left _ hx) p).mp hp⟩
  · rintro ⟨b, hb, hp⟩
    obtain ⟨x, hx, rfl⟩ := mem_map.mp hb
    exact ⟨x, hx, (hv.holds_iff_mem_block hc (mem_append_left _ hx) p).mpr hp⟩

theorem IsReduced.not_freePage_of_error (hred : h.IsReduced) {order : ℕ}
    (horder : order < cfg.maxOrder) {e : BuddyError} {s' : BuddyAllocator}
    (herr : h.buddy.alloc order = (.error e, s')) {a : ℕ} (ha : 2 ^ order * cfg.pageSize ∣ a) :
    ¬ ∀ p, Extent.Holds cfg ⟨a, order⟩ p → h.FreePage p := by
  intro hrun
  obtain rfl := hv.config_eq
  obtain ⟨c, hceq⟩ := Extent.exists_eq_ofBlock (x := ⟨a, order⟩) ha
  obtain rfl : order = c.order := congrArg Extent.order hceq
  rcases BuddyAllocator.exists_allocated hc hv.aligned horder with
    ⟨-, hsmall⟩ | ⟨_, taken, _, _, _, hok, -⟩
  · obtain ⟨b, hb, hwithin⟩ := (hv.tiling hd).exists_within hred horder (c := c) fun p hp =>
      (hv.freePage_iff hc).mp (hrun p (hceq ▸ (Extent.holds_ofBlock hc).mpr hp))
    have hle := hwithin.order_le
    have hlt := hsmall b hb
    omega
  · rw [herr] at hok
    cases hok

/-! ## Freeing everything -/

theorem Valid.free_all {l : List Extent} (hl : l.Perm h.live) :
    Along Heap.step Disciplined h (l.map .free) ∧
      (exec Heap.step h (l.map .free)).live = [] := by
  induction l generalizing h with
  | nil => exact ⟨trivial, nil_perm.mp hl⟩
  | cons x l ih =>
    have hx : x ∈ h.live := hl.mem_iff.mp (mem_cons_self ..)
    have hlive : (h.step (.free x)).live = h.live.erase x := by
      obtain ⟨b, rfl, -⟩ := hv.live x hx
      obtain rfl := hv.config_eq
      obtain ⟨s', merged, buddies, rest, hstep, -⟩ := hv.exists_freed hc hd hx
      rw [hstep]
    obtain ⟨halong, hnil⟩ := ih (hv.free hc hd hx) (hlive ▸ (cons_perm_iff_perm_erase.mp hl).2)
    exact ⟨⟨hx, halong⟩, hnil⟩

end

variable {h' : Heap} (hv : Valid cfg [r] h) (hv' : Valid cfg [r] h') (hred : h.IsReduced)
  (hred' : h'.IsReduced)
include hv hv'

omit hc in
theorem Valid.freePages_eq (hlive : h.live.Perm h'.live) :
    {p | ∃ b ∈ h.buddy.freeBlocks, p ∈ b} = {p | ∃ b ∈ h'.buddy.freeBlocks, p ∈ b} := by
  ext p
  have hsame : Block.cover h.liveBlocks p = Block.cover h'.liveBlocks p := by
    rw [liveBlocks, liveBlocks, hv.config_eq, hv'.config_eq]
    exact Block.weigh_perm (hlive.map _)
  have hcover := (hv.cover p).trans (hv'.cover p).symm
  simp only [Set.mem_ofPred_eq, ← Block.cover_pos_iff, Block.cover, Block.weigh_append] at *
  omega

include hred hred'

theorem mem_free_iff_of_live_perm (hlive : h.live.Perm h'.live) {o : ℕ}
    (ho : o < cfg.maxOrder) (a : ℕ) : a ∈ h.buddy.free o ↔ a ∈ h'.buddy.free o := by
  have hd := disjoint_singleton cfg r
  have hmax : h.buddy.config.maxOrder = h'.buddy.config.maxOrder := by
    rw [hv.config_eq, hv'.config_eq]
  have hset := (hv.tiling hd).unique (hv.freePages_eq hv' hlive ▸ hv'.tiling hd) hred (hmax ▸ hred')
  have hsame : ∀ b : Block, b ∈ h.buddy.freeBlocks ↔ b ∈ h'.buddy.freeBlocks :=
    fun b => Set.ext_iff.mp hset b
  simp only [BuddyAllocator.freeBlocks, hv.config_eq, hv'.config_eq] at hsame
  have hfree := hv.aligned
  have hfree' := hv'.aligned
  rw [hv.config_eq] at hfree
  rw [hv'.config_eq] at hfree'
  simp only [mem_blocks_iff hc hfree, mem_blocks_iff hc hfree'] at hsame
  constructor
  · intro ha
    obtain ⟨b, rfl, rfl, -⟩ := hfree o ho a ha
    exact ((hsame b).mp ⟨ho, ha⟩).2
  · intro ha
    obtain ⟨b, rfl, rfl, -⟩ := hfree' o ho a ha
    exact ((hsame b).mpr ⟨ho, ha⟩).2

theorem mem_free_iff_of_live_eq_nil (hlive : h.live = []) (hlive' : h'.live = []) {o : ℕ}
    (ho : o < cfg.maxOrder) (a : ℕ) : a ∈ h.buddy.free o ↔ a ∈ h'.buddy.free o :=
  mem_free_iff_of_live_perm hc hv hv' hred hred' (by rw [hlive, hlive']) ho a

end

/-- **Merging is complete.**  In every state of a run on one region no two buddies are free,
`alloc` of an order below the maximum fails only if there is no aligned run of free pages, and
freeing the live blocks, in any order, gives back the lists of the beginning. -/
theorem coalescing_complete (hc : cfg.Sound) (hr : r.Valid cfg) (hreach : Reached cfg [r] h) :
    h.Coalesced ∧
      (∀ order < cfg.maxOrder, ∀ e s', h.buddy.alloc order = (.error e, s') →
        ¬ ∃ a, 2 ^ order * cfg.pageSize ∣ a ∧
          ∀ p, Extent.Holds cfg ⟨a, order⟩ p → h.FreePage p) ∧
      ∀ l : List Extent, l.Perm h.live →
        Along Heap.step Disciplined h (l.map .free) ∧
        (exec Heap.step h (l.map .free)).live = [] ∧
        ∀ o < cfg.maxOrder, ∀ a, a ∈ (exec Heap.step h (l.map .free)).buddy.free o ↔
          a ∈ (start cfg [r]).buddy.free o := by
  have hd := disjoint_singleton cfg r
  obtain ⟨hv, hred⟩ := hreach.valid_and_isReduced hc hr
  refine ⟨hred.coalesced hc hv, ?_, ?_⟩
  · rintro order horder e s' herr ⟨a, ha, hrun⟩
    exact hred.not_freePage_of_error hc hd hv horder herr ha hrun
  intro l hl
  obtain ⟨halong, hnil⟩ := hv.free_all hc hd hl
  refine ⟨halong, hnil, ?_⟩
  have hend : Reached cfg [r] (exec Heap.step h (l.map .free)) := by
    obtain ⟨calls, hcalls, rfl⟩ := hreach
    refine ⟨calls ++ l.map .free, ?_, ?_⟩
    · exact along_append.mpr ⟨hcalls, halong⟩
    · exact (exec_append ..).symm
  obtain ⟨hv', hred'⟩ := hend.valid_and_isReduced hc hr
  obtain ⟨hvs, hreds⟩ := Reached.valid_and_isReduced hc hr (h := start cfg [r]) ⟨[], trivial, rfl⟩
  intro o ho a
  exact mem_free_iff_of_live_eq_nil hc hv' hvs hred' hreds hnil rfl ho a

theorem coalescing_sample :
    ∃ h : Heap, h = exec Heap.step (start {} [⟨0x1000, 7⟩]) [.alloc 0, .alloc 0] ∧
      h.live = [⟨0x2000, 0⟩, ⟨0x1000, 0⟩] ∧ h.Coalesced ∧
      ∀ l : List Extent, l.Perm h.live →
        ∀ o < 11, ∀ a, a ∈ (exec Heap.step h (l.map .free)).buddy.free o ↔
          a ∈ (start {} [⟨0x1000, 7⟩]).buddy.free o := by
  have hc : BuddyConfig.Sound {} := ⟨rfl, by decide⟩
  have hr : BuddyRegion.Valid {} ⟨0x1000, 7⟩ := ⟨by decide, by decide⟩
  have hreach : Reached {} [⟨0x1000, 7⟩]
      (exec Heap.step (start {} [⟨0x1000, 7⟩]) [.alloc 0, .alloc 0]) :=
    ⟨[.alloc 0, .alloc 0], ⟨trivial, trivial, trivial⟩, rfl⟩
  obtain ⟨hno, -, hall⟩ := coalescing_complete hc hr hreach
  exact ⟨_, rfl, by decide, hno, fun l hl => (hall l hl).2.2⟩

/-- **The free lists have no history.**  Any two runs on one region that end with the same live
blocks end with the same blocks in every free list. -/
theorem free_iff_of_same_live (hc : cfg.Sound) (hr : r.Valid cfg) {h' : Heap}
    (hreach : Reached cfg [r] h) (hreach' : Reached cfg [r] h')
    (hlive : h.live.Perm h'.live) {o : ℕ} (ho : o < cfg.maxOrder) (a : ℕ) :
    a ∈ h.buddy.free o ↔ a ∈ h'.buddy.free o := by
  obtain ⟨hv, hred⟩ := hreach.valid_and_isReduced hc hr
  obtain ⟨hv', hred'⟩ := hreach'.valid_and_isReduced hc hr
  exact mem_free_iff_of_live_perm hc hv hv' hred hred' hlive ho a

theorem free_same_live_sample : ∃ r : BuddyRegion, r = ⟨0x1000, 7⟩ ∧
    ∀ o < 11, ∀ a, a ∈ (exec Heap.step (start {} [r]) [.alloc 0]).buddy.free o ↔
      a ∈ (exec Heap.step (start {} [r]) [.alloc 0, .alloc 1, .free ⟨0x2000, 1⟩]).buddy.free o := by
  refine ⟨_, rfl, fun o ho a => free_iff_of_same_live ⟨rfl, ?_⟩ ⟨?_, ?_⟩
    ⟨[.alloc 0], ⟨trivial, trivial⟩, rfl⟩
    ⟨[.alloc 0, .alloc 1, .free ⟨0x2000, 1⟩], ⟨trivial, trivial, ?_, trivial⟩, rfl⟩ ?_ ho a⟩
  all_goals decide

/-- The largest block that can be asked for has `2 ^ 10` pages: twice as many are refused, though
they are free, aligned and in a row. -/
theorem largest_refused :
    ∃ h : Heap, h = start {} [⟨0, 2048⟩] ∧ Reached {} [⟨0, 2048⟩] h ∧
      h.buddy.alloc 11 = (.error (.invalidOrder 11 10), h.buddy) ∧
      ∀ p, Extent.Holds {} ⟨0, 11⟩ p → h.FreePage p := by
  refine ⟨_, rfl, ⟨[], trivial, rfl⟩, rfl, ?_⟩
  rintro p ⟨-, hp⟩
  have hlist : (start {} [⟨0, 2048⟩]).freeExtents = [⟨0, 10⟩, ⟨0x400000, 10⟩] := by decide
  simp only [FreePage, hlist, Extent.Holds]
  change p * 4096 < 0 + 2 ^ 11 * 4096 at hp
  by_cases hhalf : p < 1024
  · refine ⟨⟨0, 10⟩, by decide, Nat.zero_le _, ?_⟩
    change p * 4096 < 0 + 2 ^ 10 * 4096
    omega
  · refine ⟨⟨0x400000, 10⟩, by decide, ?_, ?_⟩
    · change 0x400000 ≤ p * 4096
      omega
    · change p * 4096 < 0x400000 + 2 ^ 10 * 4096
      omega

end Heap

end IonaOs.Memory
