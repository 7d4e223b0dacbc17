import IonaOs.Lib.Run
import IonaOs.Memory.Buddy

/-!
# The blocks of the buddy allocator partition its regions
-/

namespace IonaOs.Memory

open Lib List BuddyConfig Block BuddyAllocator

/-- A region given to `add_region`. -/
structure BuddyRegion where
  base : ℕ
  pages : ℕ

variable (cfg : BuddyConfig)

def BuddyRegion.Holds (r : BuddyRegion) (p : ℕ) : Prop :=
  r.base ≤ p * cfg.pageSize ∧ p * cfg.pageSize < r.base + r.pages * cfg.pageSize
deriving Decidable

structure BuddyRegion.Valid (r : BuddyRegion) : Prop where
  aligned : cfg.pageSize ∣ r.base
  inSpace : r.base + r.pages * cfg.pageSize ≤ 2 ^ 64

def BuddyDisjoint (regions : List BuddyRegion) : Prop :=
  regions.Pairwise fun r r' => ∀ p, r.Holds cfg p → ¬ r'.Holds cfg p

/-- A block of `2 ^ order` pages at an address. -/
structure Extent where
  addr : ℕ
  order : ℕ
deriving DecidableEq

open Extent hiding addr order

def Extent.Holds (cfg : BuddyConfig) (x : Extent) (p : ℕ) : Prop :=
  x.addr ≤ p * cfg.pageSize ∧ p * cfg.pageSize < x.addr + 2 ^ x.order * cfg.pageSize

inductive BuddyCall where
  | alloc (order : ℕ)
  | free (x : Extent)

structure Heap where
  buddy : BuddyAllocator
  live : List Extent

namespace Heap

def step (h : Heap) : BuddyCall → Heap
  | .alloc order =>
    match h.buddy.alloc order with
    | (.ok addr, buddy) => ⟨buddy, ⟨addr, order⟩ :: h.live⟩
    | (.error _, buddy) => { h with buddy }
  | .free x =>
    match h.buddy.freeBlock x.addr x.order with
    | (.ok (), buddy) => ⟨buddy, h.live.erase x⟩
    | (.error _, buddy) => { h with buddy }

def Disciplined (h : Heap) : BuddyCall → Prop
  | .alloc _ => True
  | .free x => x ∈ h.live

instance (h : Heap) : DecidablePred h.Disciplined
  | .alloc _ => .isTrue trivial
  | .free x => inferInstanceAs (Decidable (x ∈ h.live))

variable (cfg : BuddyConfig)

variable (regions : List BuddyRegion)

def start : Heap :=
  ⟨regions.foldl (fun s r => s.addRegion r.base r.pages) (.new cfg), []⟩

def Reached (h : Heap) : Prop :=
  ∃ calls, Along Heap.step Disciplined (start cfg regions) calls ∧
    h = exec Heap.step (start cfg regions) calls

def freeExtents (h : Heap) : List Extent :=
  (range h.buddy.config.maxOrder).flatMap fun o => (h.buddy.free o).map (⟨·, o⟩)

structure Partitioned (h : Heap) : Prop where
  disjoint : (h.freeExtents ++ h.live).Pairwise fun x y => ∀ p, x.Holds cfg p →
    ¬ y.Holds cfg p
  aligned : ∀ x ∈ h.freeExtents ++ h.live, 2 ^ x.order * cfg.pageSize ∣ x.addr
  covers : ∀ p, (∃ x ∈ h.freeExtents ++ h.live, x.Holds cfg p) ↔
    ∃ r ∈ regions, r.Holds cfg p
  freePages : h.buddy.freePages = (h.freeExtents.map (2 ^ ·.order)).sum

def Inside (h : Heap) : Prop :=
  ∀ x ∈ h.freeExtents ++ h.live, ∃ r ∈ regions, ∀ p, x.Holds cfg p → r.Holds cfg p

end Heap

def BuddySeamless (cfg : BuddyConfig) (regions : List BuddyRegion) : Prop :=
  ∀ x : Extent, x.order < cfg.maxOrder → 2 ^ x.order * cfg.pageSize ∣ x.addr →
    (∀ p, x.Holds cfg p → ∃ r ∈ regions, r.Holds cfg p) →
    ∃ r ∈ regions, ∀ p, x.Holds cfg p → r.Holds cfg p

/-! ## Extents and blocks -/

namespace Extent

variable {cfg : BuddyConfig}

def ofBlock (cfg : BuddyConfig) (b : Block) : Extent := ⟨cfg.addr b, b.order⟩

def block (cfg : BuddyConfig) (x : Extent) : Block := cfg.blockAt x.order x.addr

theorem holds_ofBlock (hc : cfg.Sound) {b : Block} {p : ℕ} :
    (ofBlock cfg b).Holds cfg p ↔ p ∈ b := by
  rw [mem_iff]
  have hadd : cfg.addr b + 2 ^ b.order * cfg.pageSize =
      (b.first + 2 ^ b.order) * cfg.pageSize := (Nat.add_mul _ _ _).symm
  simp only [Holds, ofBlock, hadd]
  rw [BuddyConfig.addr, Nat.mul_le_mul_right_iff hc.pageSize_pos,
    Nat.mul_lt_mul_right hc.pageSize_pos]

theorem block_ofBlock (hc : cfg.Sound) (b : Block) : (ofBlock cfg b).block cfg = b :=
  blockAt_addr hc b

theorem exists_eq_ofBlock {x : Extent} (hx : 2 ^ x.order * cfg.pageSize ∣ x.addr) :
    ∃ b, x = ofBlock cfg b := by
  obtain ⟨i, hi⟩ := hx
  refine ⟨⟨x.order, i⟩, ?_⟩
  simp only [ofBlock, addr_eq, size]
  rw [Nat.mul_comm i, ← hi]

end Extent

/-! ## What every run keeps -/

namespace Heap

variable {cfg : BuddyConfig} {regions : List BuddyRegion} {h : Heap}

def liveBlocks (h : Heap) : List Block := h.live.map (block h.buddy.config)

structure Valid (cfg : BuddyConfig) (regions : List BuddyRegion) (h : Heap) : Prop where
  config_eq : h.buddy.config = cfg
  aligned : h.buddy.free.Aligned h.buddy.config
  live : ∀ x ∈ h.live, ∃ b : Block, x = .ofBlock h.buddy.config b ∧
    h.buddy.config.InSpace b ∧ b.order < h.buddy.config.maxOrder
  cover : ∀ p, Block.cover (h.liveBlocks ++ h.buddy.freeBlocks) p =
    regions.countP (·.Holds cfg p)
  pages : h.buddy.freePages = weigh (fun b => 2 ^ b.order) h.buddy.freeBlocks

theorem countP_le_one (hd : BuddyDisjoint cfg regions) (p : ℕ) :
    regions.countP (·.Holds cfg p) ≤ 1 := by
  induction regions with
  | nil => exact Nat.zero_le 1
  | cons r rs ih =>
    obtain ⟨hr, hrs⟩ := pairwise_cons.mp hd
    by_cases hp : r.Holds cfg p
    · have hzero : rs.countP (·.Holds cfg p) = 0 := by
        rw [countP_eq_zero]
        intro r' hr'
        simpa using hr r' hr' p hp
      rw [countP_cons_of_pos (by simpa using hp), hzero]
    · rw [countP_cons_of_neg (by simpa using hp)]
      exact ih hrs

section

variable (hc : cfg.Sound)
include hc

theorem Valid.alloc_cases (hv : Valid cfg regions h) (order : ℕ) :
    h.step (.alloc order) = h ∨ ∃ s' taken whole halves rest, order < cfg.maxOrder ∧
      h.step (.alloc order) = ⟨s', .ofBlock cfg taken :: h.live⟩ ∧
      h.buddy.Allocated order s' taken whole halves rest := by
  obtain rfl := hv.config_eq
  by_cases horder : order < h.buddy.config.maxOrder
  · rcases exists_allocated hc hv.aligned horder with
      ⟨hfail, -⟩ | ⟨s', taken, whole, halves, rest, hok, ha⟩
    · exact .inl (by simp [step, hfail])
    · exact .inr ⟨s', taken, whole, halves, rest, horder,
        by simp [step, hok, ofBlock, ha.order_eq], ha⟩
  · exact .inl (by simp [step, alloc, Nat.not_lt.mp horder])

theorem Valid.alloc (hv : Valid cfg regions h) (order : ℕ) :
    Valid cfg regions (h.step (.alloc order)) := by
  obtain hstep | ⟨s', taken, whole, halves, rest, horder, hstep, ha⟩ := hv.alloc_cases hc order <;>
    rw [hstep]
  · exact hv
  obtain rfl := hv.config_eq
  have hlive : liveBlocks ⟨s', .ofBlock h.buddy.config taken :: h.live⟩ =
      taken :: h.liveBlocks := by
    simp only [liveBlocks, ha.config, map_cons, block_ofBlock hc]
  refine ⟨ha.config, ?_, ?_, ?_, ?_⟩
  · rw [ha.config]
    exact ha.aligned
  · intro x hx
    rw [ha.config]
    rcases mem_cons.mp hx with rfl | hx
    · exact ⟨taken, rfl, ha.inSpace, ha.order_eq ▸ horder⟩
    · exact hv.live x hx
  · intro p
    rw [← hv.cover p, hlive]
    have hweigh := ha.weigh (Block.additive_mem p)
    simp only [Block.cover, Block.weigh_append, Block.weigh_cons]
    omega
  · rw [ha.freePages, hv.pages, ← ha.weigh Block.additive_size, ha.order_eq]
    exact Nat.add_sub_cancel ..

section

variable (hd : BuddyDisjoint cfg regions) (hv : Valid cfg regions h)
include hd hv

theorem Valid.exists_freed {b : Block} (hb : .ofBlock cfg b ∈ h.live) : ∃ s' merged buddies rest,
      h.step (.free (.ofBlock cfg b)) = ⟨s', h.live.erase (.ofBlock cfg b)⟩ ∧
        h.buddy.freeBlock (cfg.addr b) b.order = (.ok (), s') ∧
        h.buddy.Freed b s' merged buddies rest := by
  obtain rfl := hv.config_eq
  obtain ⟨b', heq, hspace, horder⟩ := hv.live _ hb
  obtain rfl : b = b' := by
    rw [← block_ofBlock hc b, heq, block_ofBlock hc]
  have hone : ∀ p, Block.cover (b :: h.buddy.freeBlocks) p ≤ 1 := by
    intro p
    have hcover := hv.cover p
    have hle := countP_le_one hd p
    have hmem : b ∈ h.liveBlocks := by
      rw [← block_ofBlock hc b]
      exact mem_map_of_mem hb
    have hin := le_weigh (w := fun b => if p ∈ b then 1 else 0) hmem
    simp only [Block.cover, Block.weigh_append, Block.weigh_cons] at hcover ⊢
    omega
  obtain ⟨s', merged, buddies, rest, hok, hf⟩ :=
    exists_freed hc hv.aligned hspace horder hone
  exact ⟨s', merged, buddies, rest, by simp [step, ofBlock, hok], hok, hf⟩

theorem Valid.free {x : Extent} (hx : x ∈ h.live) : Valid cfg regions (h.step (.free x)) := by
  obtain ⟨b, rfl, -⟩ := hv.live x hx
  obtain rfl := hv.config_eq
  obtain ⟨s', merged, buddies, rest, hstep, -, hf⟩ := hv.exists_freed hc hd hx
  rw [hstep]
  have hlive : h.liveBlocks.Perm
      (b :: liveBlocks ⟨s', h.live.erase (.ofBlock h.buddy.config b)⟩) := by
    have hperm := (perm_cons_erase hx).map (block h.buddy.config)
    rw [map_cons, block_ofBlock hc] at hperm
    simpa only [liveBlocks, hf.config] using hperm
  refine ⟨hf.config, ?_, ?_, ?_, ?_⟩
  · rw [hf.config]
    exact hf.aligned
  · intro y hy
    rw [hf.config]
    exact hv.live y (mem_of_mem_erase hy)
  · intro p
    rw [← hv.cover p]
    have hweigh := hf.weigh (Block.additive_mem p)
    have hrest := Block.weigh_perm (w := fun b => if p ∈ b then 1 else 0) hlive
    simp only [Block.cover, Block.weigh_append, Block.weigh_cons] at hrest ⊢
    omega
  · rw [hf.freePages, hv.pages]
    exact (hf.weigh Block.additive_size).symm

theorem Valid.step {call : BuddyCall} (hcall : h.Disciplined call) :
    Valid cfg regions (h.step call) := by
  cases call with
  | alloc order => exact hv.alloc hc order
  | free => exact hv.free hc hd hcall

end

/-! ## The start -/

theorem holds_iff {r : BuddyRegion} (hr : r.Valid cfg) {p : ℕ} :
    r.Holds cfg p ↔ r.base / cfg.pageSize ≤ p ∧
      p < r.base / cfg.pageSize + r.pages := by
  have hbase := Nat.div_mul_cancel hr.aligned
  rw [BuddyRegion.Holds, ← hbase, ← Nat.add_mul, Nat.mul_le_mul_right_iff hc.pageSize_pos,
    Nat.mul_lt_mul_right hc.pageSize_pos, Nat.mul_div_cancel _ hc.pageSize_pos]

end

structure Added (regions : List BuddyRegion) (s out : BuddyAllocator) : Prop where
  config : out.config = s.config
  aligned : out.free.Aligned s.config
  cover : ∀ p, Block.cover out.freeBlocks p =
    Block.cover s.freeBlocks p + regions.countP (·.Holds s.config p)
  pages : out.freePages + weigh (fun b => 2 ^ b.order) s.freeBlocks =
    s.freePages + weigh (fun b => 2 ^ b.order) out.freeBlocks
  mem : ∀ b ∈ s.freeBlocks, b ∈ out.freeBlocks
  laid : ∀ r ∈ regions, ∃ blocks : List Block, (∀ b ∈ blocks, b ∈ out.freeBlocks) ∧
    Tiling {b | b ∈ blocks} {p | r.Holds s.config p} ∧
    Reduced s.config.maxOrder {b | b ∈ blocks}

theorem added_foldl {s : BuddyAllocator} (hc : s.config.Sound)
    (hs : s.free.Aligned s.config) (hr : ∀ r ∈ regions, r.Valid s.config) :
    Added regions s (regions.foldl (fun s r => s.addRegion r.base r.pages) s) := by
  induction regions generalizing s with
  | nil => exact ⟨rfl, hs, fun p => by simp, rfl, fun b hb => hb, by simp⟩
  | cons r rs ih =>
    have hvalid := hr r (mem_cons_self ..)
    have hbase := Nat.div_mul_cancel hvalid.aligned
    have hspace : (r.base / s.config.pageSize + r.pages) * s.config.pageSize ≤ 2 ^ 64 := by
      rw [Nat.add_mul, hbase]
      exact hvalid.inSpace
    obtain ⟨blocks, hlaid⟩ := exists_laid hc hs le_rfl hspace
    rw [hbase] at hlaid
    have hcover : ∀ p, cover blocks p = if r.Holds s.config p then 1 else 0 := by
      intro p
      rw [hlaid.cover]
      simp only [holds_iff hc hvalid]
    have hrest := ih (s := s.addRegion r.base r.pages) hc hlaid.aligned
      fun r' hr' => hr r' (mem_cons_of_mem _ hr')
    have hperm : (s.addRegion r.base r.pages).freeBlocks.Perm (blocks ++ s.freeBlocks) := hlaid.perm
    rw [foldl_cons]
    refine ⟨hrest.config, hrest.aligned, ?_, ?_, ?_, ?_⟩
    · intro p
      have hmore : cover _ p = cover (s.addRegion r.base r.pages).freeBlocks p +
        rs.countP (·.Holds s.config p) := hrest.cover p
      have hone : cover (s.addRegion r.base r.pages).freeBlocks p =
          cover blocks p + cover s.freeBlocks p := by
        rw [cover, weigh_perm hperm, weigh_append]
        rfl
      rw [hmore, hone, hcover, countP_cons]
      simp only [decide_eq_true_eq]
      omega
    · have hpages := hrest.pages
      have hsum := weigh_perm (w := fun b => 2 ^ b.order) hperm
      rw [weigh_append, hlaid.size] at hsum
      have hnew : (s.addRegion r.base r.pages).freePages = s.freePages + r.pages := rfl
      omega
    · intro b hb
      exact hrest.mem b (hperm.mem_iff.mpr (mem_append_right _ hb))
    · intro r' hr'
      rcases mem_cons.mp hr' with rfl | hr'
      · refine ⟨blocks, ?_, .of_cover ?_ ?_, hlaid.reduced⟩
        · intro b hb
          exact hrest.mem b (hperm.mem_iff.mpr (mem_append_left _ hb))
        · intro p hp
          exact (hcover p).trans (if_pos hp)
        · intro p hp
          exact (hcover p).trans (if_neg hp)
      · exact hrest.laid r' hr'

theorem freeBlocks_new (cfg : BuddyConfig) : (new cfg).freeBlocks = [] := by
  simp [freeBlocks, FreeLists.blocks, new]

section

variable (hc : cfg.Sound)
include hc

section

variable (hr : ∀ r ∈ regions, r.Valid cfg)
include hr

theorem added_start : Added regions (.new cfg) (start cfg regions).buddy :=
  added_foldl hc (fun o _ a ha => by simp [new] at ha) hr

theorem valid_start : Valid cfg regions (start cfg regions) := by
  have hadd := added_start hc hr
  have hnone := freeBlocks_new cfg
  have hconfig : (start cfg regions).buddy.config = cfg := hadd.config
  refine ⟨hconfig, ?_, by simp [start], ?_, ?_⟩
  · rw [hconfig]
    exact hadd.aligned
  · intro p
    have hcover : cover (start cfg regions).buddy.freeBlocks p =
      cover (new cfg).freeBlocks p +
        regions.countP (·.Holds cfg p) := hadd.cover p
    rw [hnone] at hcover
    simpa [liveBlocks, start, cover] using hcover
  · have hpages := hadd.pages
    rw [hnone] at hpages
    simpa [new] using hpages

theorem Reached.valid (hd : BuddyDisjoint cfg regions) (h' : Reached cfg regions h) :
    Valid cfg regions h := by
  obtain ⟨calls, hcalls, rfl⟩ := h'
  exact hcalls.invariant (valid_start hc hr) fun _ _ hv hcall => hv.step hc hd hcall

end

/-! ## The partition -/

omit hc in
theorem map_block_freeExtents (h : Heap) :
    h.freeExtents.map (block h.buddy.config) = h.buddy.freeBlocks := by
  simp only [freeExtents, map_flatMap, map_map]
  rfl

section

variable (hv : Valid cfg regions h)
include hv

omit hc in
theorem Valid.exists_block {x : Extent} (hx : x ∈ h.freeExtents ++ h.live) :
    ∃ b : Block, x = .ofBlock cfg b ∧ b.order < cfg.maxOrder := by
  obtain rfl := hv.config_eq
  rcases mem_append.mp hx with hx | hx
  · simp only [freeExtents, mem_flatMap, mem_range, mem_map] at hx
    obtain ⟨o, ho, a, ha, rfl⟩ := hx
    obtain ⟨b, rfl, rfl, -⟩ := hv.aligned o ho a ha
    exact ⟨b, rfl, ho⟩
  · obtain ⟨b, rfl, -, ho⟩ := hv.live x hx
    exact ⟨b, rfl, ho⟩

theorem Valid.holds_iff_mem_block {x : Extent} (hx : x ∈ h.freeExtents ++ h.live) (p : ℕ) :
    x.Holds cfg p ↔ p ∈ x.block cfg := by
  obtain ⟨b, rfl, -⟩ := hv.exists_block hx
  rw [holds_ofBlock hc, block_ofBlock hc]

end

section

variable (hd : BuddyDisjoint cfg regions) (hv : Valid cfg regions h)
include hd hv

theorem Valid.partitioned : Partitioned cfg regions h := by
  have hcover : ∀ p, Block.cover ((h.freeExtents ++ h.live).map (block cfg)) p =
      regions.countP (·.Holds cfg p) := by
    intro p
    obtain rfl := hv.config_eq
    rw [← hv.cover p, map_append, map_block_freeExtents]
    exact Block.weigh_perm perm_append_comm
  refine ⟨?_, ?_, ?_, ?_⟩
  · have hpair := pairwise_of_cover_le_one fun p => (hcover p).trans_le (countP_le_one hd p)
    rw [pairwise_map] at hpair
    refine hpair.imp_of_mem ?_
    intro x y hx hy hdisj p hpx hpy
    exact hdisj p ((hv.holds_iff_mem_block hc hx p).mp hpx)
      ((hv.holds_iff_mem_block hc hy p).mp hpy)
  · intro x hx
    obtain ⟨b, rfl, -⟩ := hv.exists_block hx
    simp only [ofBlock, BuddyConfig.addr_eq]
    exact Nat.dvd_mul_left _ _
  · intro p
    have hpos : 0 < regions.countP (·.Holds cfg p) ↔ ∃ r ∈ regions, r.Holds cfg p := by
      simp [countP_pos_iff]
    rw [← hpos, ← hcover p, cover_pos_iff]
    constructor
    · rintro ⟨x, hx, hp⟩
      exact ⟨_, mem_map_of_mem hx, (hv.holds_iff_mem_block hc hx p).mp hp⟩
    · rintro ⟨b, hb, hp⟩
      obtain ⟨x, hx, rfl⟩ := mem_map.mp hb
      exact ⟨x, hx, (hv.holds_iff_mem_block hc hx p).mpr hp⟩
  · rw [hv.pages, ← map_block_freeExtents, weigh, map_map]
    rfl

theorem Valid.inside (hseam : BuddySeamless cfg regions) : Inside cfg regions h := by
  have hpart := hv.partitioned hc hd
  intro x hx
  obtain ⟨b, rfl, ho⟩ := hv.exists_block hx
  refine hseam _ ho (hpart.aligned _ hx) ?_
  intro p hp
  exact (hpart.covers p).mp ⟨_, hx, hp⟩

/-! ## Merging at a seam -/

theorem Valid.exists_merge_of_live {d : Block} (hlt : d.order + 1 < cfg.maxOrder)
    (hlive : .ofBlock cfg d ∈ h.live) (hbuddy : d.buddy ∈ h.buddy.freeBlocks) :
    ∃ m ∈ (h.step (.free (.ofBlock cfg d))).buddy.freeBlocks, d.parent.Within m := by
  obtain ⟨s', merged, buddies, rest, hstep, -, hf⟩ := hv.exists_freed hc hd hlive
  obtain rfl := hv.config_eq
  rw [hstep]
  exact ⟨merged, hf.after.mem_iff.mpr (mem_cons_self ..), hf.parent hlt hbuddy⟩

theorem Valid.exists_merge {d : Block} (hlt : d.order + 1 < cfg.maxOrder)
    (hmem : d ∈ h.buddy.freeBlocks) (hbuddy : d.buddy ∈ h.buddy.freeBlocks) :
    ∃ calls, Along Heap.step Disciplined h calls ∧
      ∃ m ∈ (exec Heap.step h calls).buddy.freeBlocks, d.parent.Within m := by
  -- Blocks of the order are taken until one of the two comes, which is then freed.
  induction hn : h.buddy.freeBlocks.length generalizing h with
  | zero =>
    rw [length_eq_zero_iff.mp hn] at hmem
    cases hmem
  | succ n ih =>
    obtain rfl := hv.config_eq
    obtain ⟨s', taken, hok, horder, hperm⟩ := exists_popped hc hv.aligned hmem
    have hstep : h.step (.alloc d.order) =
        ⟨s', .ofBlock h.buddy.config taken :: h.live⟩ := by
      simp [Heap.step, hok, ofBlock, horder]
    have hv' := hv.alloc hc d.order
    rw [hstep] at hv'
    have hdone : taken.parent = d.parent → taken.buddy ∈ h.buddy.freeBlocks →
        ∃ calls, Along Heap.step Disciplined h calls ∧
          ∃ m ∈ (exec Heap.step h calls).buddy.freeBlocks, d.parent.Within m := by
      intro hparent hother
      have hfree : taken.buddy ∈ s'.freeBlocks :=
        (mem_cons.mp (hperm.mem_iff.mp hother)).resolve_left taken.buddy_ne
      have hmerged := hv'.exists_merge_of_live hc hd (horder ▸ hlt) (mem_cons_self ..) hfree
      rw [← hstep, hparent] at hmerged
      refine ⟨[.alloc d.order, .free (.ofBlock h.buddy.config taken)], ⟨trivial, ?_, trivial⟩,
        hmerged⟩
      rw [hstep]
      exact mem_cons_self ..
    rcases mem_cons.mp (hperm.mem_iff.mp hmem) with rfl | hmem'
    · exact hdone rfl hbuddy
    rcases mem_cons.mp (hperm.mem_iff.mp hbuddy) with rfl | hbuddy'
    · exact hdone d.parent_buddy (d.buddy_buddy.symm ▸ hmem)
    have hlen := hperm.length_eq
    rw [hn, length_cons] at hlen
    obtain ⟨calls, hcalls, hmerged⟩ := ih hv' hmem' hbuddy' (by simpa using hlen.symm)
    rw [← hstep] at hcalls hmerged
    exact ⟨.alloc d.order :: calls, ⟨trivial, hcalls⟩, hmerged⟩

end

theorem exists_region (hr : ∀ r ∈ regions, r.Valid cfg) (hd : BuddyDisjoint cfg regions)
    (hin : ∀ h, Reached cfg regions h → Inside cfg regions h) {c : Block}
    (hlt : c.order < cfg.maxOrder) (hcov : ∀ p ∈ c, ∃ r ∈ regions, r.Holds cfg p) :
    ∃ r ∈ regions, ∀ p ∈ c, r.Holds cfg p := by
  induction ho : c.order generalizing c with
  | zero =>
    obtain ⟨r, hr', hfirst⟩ := hcov _ c.first_mem
    refine ⟨r, hr', fun p hp => ?_⟩
    rw [mem_iff, ho, pow_zero] at hp
    obtain rfl : p = c.first := by omega
    exact hfirst
  | succ o ih =>
    obtain ⟨d, rfl⟩ := exists_parent_eq (b := c) (by omega)
    have hdo : d.order = o := by simpa using ho
    by_contra hnone
    -- A half that lies in a region, but not with the other half, is a block of that region.
    have half : ∀ e : Block, e.order = o → e.parent = d.parent →
        e ∈ (start cfg regions).buddy.freeBlocks := by
      intro e heo hparent
      obtain ⟨r, hr', hholds⟩ := ih (c := e) (by omega)
        (fun p hp => hcov p (hparent ▸ e.within_parent p hp)) heo
      obtain ⟨blocks, hsub, htiling, hred⟩ := (added_start hc hr).laid r hr'
      refine hsub e ((htiling.mem_iff hred).mpr ⟨?_, hholds, ?_⟩)
      · change e.order < cfg.maxOrder
        omega
      · intro _ hfits
        exact hnone ⟨r, hr', hparent ▸ hfits⟩
    obtain ⟨calls, hcalls, m, hm, hwithin⟩ := (valid_start hc hr).exists_merge hc hd
      (by simpa using hlt) (half d hdo rfl) (half d.buddy hdo d.parent_buddy)
    have hreached : Reached cfg regions (exec Heap.step (start cfg regions) calls) :=
      ⟨calls, hcalls, rfl⟩
    have hv := hreached.valid hc hr hd
    obtain ⟨x, hx, rfl⟩ := mem_map.mp ((map_block_freeExtents _).symm ▸ hm)
    have hx' := mem_append_left (exec Heap.step (start cfg regions) calls).live hx
    obtain ⟨r, hr', hholds⟩ := hin _ hreached x hx'
    rw [hv.config_eq] at hwithin
    exact hnone ⟨r, hr', fun p hp =>
      hholds p ((hv.holds_iff_mem_block hc hx' p).mpr (hwithin p hp))⟩

end

theorem disjoint_pair {r r' : BuddyRegion} (h : r.base + r.pages * cfg.pageSize ≤ r'.base) :
    BuddyDisjoint cfg [r, r'] := by
  refine pairwise_pair.mpr fun p hp hp' => ?_
  exact absurd (hp.2.trans_le h) (Nat.not_lt.mpr hp'.1)

/-- **The blocks partition the regions.**  In every state of every run the free and the live blocks
are disjoint, aligned, and cover the pages of the regions, and the free pages are counted.  They lie
in one region each, in every run, exactly if no aligned block is covered by several regions. -/
theorem partition_iff (hc : cfg.Sound) (hr : ∀ r ∈ regions, r.Valid cfg)
    (hd : BuddyDisjoint cfg regions) :
    (∀ h, Reached cfg regions h → Partitioned cfg regions h) ∧
      ((∀ h, Reached cfg regions h → Inside cfg regions h) ↔
        BuddySeamless cfg regions) := by
  refine ⟨fun h hh => (hh.valid hc hr hd).partitioned hc hd, ?_, ?_⟩
  · intro hin x hlt hdvd hcov
    obtain ⟨c, rfl⟩ := exists_eq_ofBlock hdvd
    simp only [holds_ofBlock hc] at hcov ⊢
    exact exists_region hc hr hd hin hlt hcov
  · intro hseam h hh
    exact (hh.valid hc hr hd).inside hc hd hseam

theorem partition_sample :
    ∃ regions : List BuddyRegion, regions = [⟨0x1000, 3⟩, ⟨0x10000, 2⟩] ∧
      (∀ h, Reached {} regions h → Partitioned {} regions h) ∧
      ((∀ h, Reached {} regions h → Inside {} regions h) ↔ BuddySeamless {} regions) := by
  refine ⟨_, rfl, partition_iff ⟨rfl, by decide⟩ ?_ ?_⟩
  · exact forall_mem_cons.mpr ⟨⟨by decide, by decide⟩,
      forall_mem_singleton.mpr ⟨by decide, by decide⟩⟩
  · exact disjoint_pair (by decide)

/-- Two regions of one page each that meet at an odd page: taking one page and giving it back leaves
one block of both. -/
theorem neighbours_merge :
    ∃ (regions : List BuddyRegion) (calls : List BuddyCall),
      regions = [⟨0, 1⟩, ⟨0x1000, 1⟩] ∧ calls = [.alloc 0, .free ⟨0x1000, 0⟩] ∧
      (∀ r ∈ regions, r.Valid {}) ∧ BuddyDisjoint {} regions ∧
      Along Heap.step Disciplined (start {} regions) calls ∧
      (exec Heap.step (start {} regions) calls).freeExtents = [⟨0, 1⟩] ∧
      ¬ Inside {} regions (exec Heap.step (start {} regions) calls) := by
  refine ⟨_, _, rfl, rfl, ?_, ?_, ?_, ?_, ?_⟩
  · exact forall_mem_cons.mpr ⟨⟨by decide, by decide⟩,
      forall_mem_singleton.mpr ⟨by decide, by decide⟩⟩
  · exact disjoint_pair (by decide)
  · exact ⟨trivial, by decide, trivial⟩
  · decide
  intro hin
  obtain ⟨r, hr, hholds⟩ := hin ⟨0, 1⟩ (by decide)
  have hzero := hholds 0 (by simp [Holds])
  have hone := hholds 1 (by simp [Holds])
  simp only [mem_cons, not_mem_nil, or_false] at hr
  rcases hr with rfl | rfl
  · exact absurd hone (by decide)
  · exact absurd hzero (by decide)

end Heap

/-! ## Blocks that are not live -/

theorem BuddyConfig.mergeLoop_below (cfg : BuddyConfig) {above a o o' : ℕ} {free : FreeLists}
    (h : o' < o) : (cfg.mergeLoop above a o free).2.2 o' = free o' := by
  induction above generalizing a o free with
  | zero => rfl
  | succ above ih =>
    rw [mergeLoop]
    split
    · rw [ih (by omega), Function.update_of_ne h.ne]
    · rfl

namespace BuddyAllocator

/-- The order is too large, or the address is not one of a page, or the block is on its free list
and its buddy is not. -/
def Refuses (s : BuddyAllocator) (addr order : ℕ) : Prop :=
  s.config.maxOrder ≤ order ∨ addr % s.config.pageSize ≠ 0 ∨ addr ∈ s.free order ∧
    (order + 1 < s.config.maxOrder → s.config.buddyAddr addr order ∉ s.free order)

theorem freeBlock_unchanged_iff {s : BuddyAllocator} {addr order : ℕ} :
    (∃ e, s.freeBlock addr order = (.error e, s)) ↔ s.Refuses addr order := by
  unfold freeBlock Refuses
  by_cases hmax : s.config.maxOrder ≤ order
  · simp [hmax]
  by_cases hpage : addr % s.config.pageSize ≠ 0
  · simp [hmax, hpage]
  simp only [hmax, hpage, if_false, false_or]
  cases habove : s.config.maxOrder - 1 - order with
  | zero =>
    have hlast : ¬ order + 1 < s.config.maxOrder := by omega
    by_cases hin : addr ∈ s.free order <;> simp [mergeLoop, hlast, hin]
  | succ above =>
    have hmore : order + 1 < s.config.maxOrder := by omega
    cases hpos : (s.free order).idxOf? (s.config.buddyAddr addr order) with
    | none =>
      have hnot := idxOf?_eq_none_iff.mp hpos
      by_cases hin : addr ∈ s.free order <;> simp [mergeLoop, hpos, hmore, hnot, hin]
    | some pos =>
      have hmem : s.config.buddyAddr addr order ∈ s.free order := by
        by_contra hnot
        rw [idxOf?_eq_none_iff.mpr hnot] at hpos
        cases hpos
      refine iff_of_false ?_ fun h => h.2 hmore hmem
      rintro ⟨e, he⟩
      simp only [mergeLoop, hpos] at he
      split at he
      · -- The buddy is off its list, and the loop never comes back to it.
        have hlist := congrArg (fun r => (r.2.free order).length) he
        have hpos := length_pos_of_mem hmem
        simp only [mergeLoop_below _ (Nat.lt_succ_self order), Function.update_self,
          swapRemove, length_dropLast, length_set] at hlist
        omega
      · simp at he

end BuddyAllocator

namespace Heap

/-- **Frees of blocks that are not live.**  `free` returns `Ok` for live blocks only, and leaves
everything as it is otherwise, exactly if what is not live is refused. -/
theorem free_guards_iff (h : Heap) (x : Extent) :
    (((h.buddy.freeBlock x.addr x.order).1 = .ok () → x ∈ h.live) ∧
      (x ∉ h.live → ∃ e, h.buddy.freeBlock x.addr x.order = (.error e, h.buddy))) ↔
      (x ∉ h.live → h.buddy.Refuses x.addr x.order) := by
  simp only [freeBlock_unchanged_iff]
  refine and_iff_right_of_imp fun hrefuses hok => ?_
  by_contra hlive
  obtain ⟨e, he⟩ := freeBlock_unchanged_iff.mpr (hrefuses hlive)
  rw [he] at hok
  cases hok

/-- A page is taken from two and given back, which merges them, and is given back once more. -/
theorem double_free_after_merge : ∃ h,
    h = exec Heap.step (start {} [⟨0, 2⟩]) [.alloc 0, .free ⟨0, 0⟩] ∧ h.live = [] ∧
    (h.buddy.freeBlock 0 0).1 = .ok () ∧ (h.buddy.freeBlock 0 0).2.freePages = 3 :=
  ⟨_, rfl, by decide⟩

end Heap

end IonaOs.Memory
