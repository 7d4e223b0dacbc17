import IonaOs.Lib.Dyadic

/-!
# The buddy allocator
-/

namespace IonaOs.Memory

open Lib Function List Block

structure BuddyConfig where
  maxOrder : ℕ := 11
  pageSize : ℕ := 4096

namespace BuddyConfig

def validate (cfg : BuddyConfig) : Except String Unit :=
  if cfg.maxOrder = 0 then .error "max_order must be > 0"
  else if cfg.pageSize = 0 then .error "page_size must be > 0"
  else if cfg.pageSize &&& (cfg.pageSize - 1) ≠ 0 then
    .error "page_size must be a power of two"
  else .ok ()

structure Sound (cfg : BuddyConfig) : Prop where
  valid : cfg.validate = .ok ()
  fits : 2 ^ (cfg.maxOrder - 1) * cfg.pageSize < 2 ^ 64

end BuddyConfig

inductive BuddyError where
  | allocationFailed (order : ℕ)
  | invalidOrder (order maxOrder : ℕ)
  | invalidAddress (address : ℕ)
  | doubleFree (address : ℕ)
deriving DecidableEq

/-- `Vec::swap_remove`. -/
def swapRemove (l : List ℕ) (pos : ℕ) : List ℕ := (l.set pos (l.getLastD 0)).dropLast

abbrev FreeLists := ℕ → List ℕ

/-- `free[order].push(addr)`. -/
def FreeLists.push (free : FreeLists) (order addr : ℕ) : FreeLists :=
  update free order (free order ++ [addr])

structure BuddyAllocator where
  config : BuddyConfig
  free : FreeLists
  totalPages : ℕ
  freePages : ℕ

namespace BuddyConfig

variable (cfg : BuddyConfig)

/-- The inner loop of `add_region`: the largest order from the given one down that is aligned and
not too large. -/
def fitOrder (addr rem : ℕ) : ℕ → ℕ
  | 0 => 0
  | order + 1 =>
    if 2 ^ (order + 1) ≤ rem ∧ addr % (2 ^ (order + 1) * cfg.pageSize) = 0 then order + 1
    else fitOrder addr rem order

/-- The outer loop of `add_region`.  Each turn takes a page at least, so that as many turns as there
are pages are enough. -/
def addLoop : ℕ → FreeLists → ℕ → ℕ → FreeLists
  | 0, free, _, _ => free
  | turns + 1, free, addr, rem =>
    if rem = 0 then free
    else
      let order := cfg.fitOrder addr rem (cfg.maxOrder - 1)
      let size := 2 ^ order
      addLoop turns (free.push order addr) ((addr + size * cfg.pageSize) % 2 ^ 64) (rem - size)

/-- The loop of `alloc` that puts the second halves on the lists below. -/
def splitLoop (order addr : ℕ) : ℕ → FreeLists → FreeLists
  | 0, free => free
  | co + 1, free =>
    if order < co + 1 then
      splitLoop order addr co (free.push co ((addr + 2 ^ co * cfg.pageSize) % 2 ^ 64))
    else free

/-- The address of the buddy in `free`. -/
def buddyAddr (a o : ℕ) : ℕ :=
  let blockSize := 2 ^ o * cfg.pageSize
  if a % (blockSize * 2) = 0 then (a + blockSize) % 2 ^ 64 else (a + 2 ^ 64 - blockSize) % 2 ^ 64

/-- The loop of `free`; the first argument is the number of orders above `o`. -/
def mergeLoop : ℕ → ℕ → ℕ → FreeLists → ℕ × ℕ × FreeLists
  | 0, a, o, free => (a, o, free)
  | above + 1, a, o, free =>
    let buddy := cfg.buddyAddr a o
    match (free o).idxOf? buddy with
    | some pos =>
      mergeLoop above (min a buddy) (o + 1) (update free o (swapRemove (free o) pos))
    | none => (a, o, free)

end BuddyConfig

namespace BuddyAllocator

def new (cfg : BuddyConfig) : BuddyAllocator := ⟨cfg, fun _ => [], 0, 0⟩

variable (s : BuddyAllocator)

def addRegion (base pages : ℕ) : BuddyAllocator :=
  { s with
    totalPages := s.totalPages + pages
    freePages := s.freePages + pages
    free := s.config.addLoop pages s.free base pages }

def alloc (order : ℕ) : Except BuddyError ℕ × BuddyAllocator :=
  let maxOrder := s.config.maxOrder
  if maxOrder ≤ order then (.error (.invalidOrder order (maxOrder - 1)), s)
  else
    match (List.range' order (maxOrder - order)).find? (s.free · ≠ []) with
    | none => (.error (.allocationFailed order), s)
    | some fo =>
      -- The list is not empty, so that the default is never taken.
      let addr := (s.free fo).getLastD 0
      let free := update s.free fo (s.free fo).dropLast
      (.ok addr, { s with
        free := s.config.splitLoop order addr fo free
        freePages := s.freePages - 2 ^ order })

def freeBlock (addr order : ℕ) : Except BuddyError Unit × BuddyAllocator :=
  let maxOrder := s.config.maxOrder
  if maxOrder ≤ order then (.error (.invalidOrder order (maxOrder - 1)), s)
  else if addr % s.config.pageSize ≠ 0 then (.error (.invalidAddress addr), s)
  else
    let (a, o, free) := s.config.mergeLoop (maxOrder - 1 - order) addr order s.free
    if a ∈ free o then (.error (.doubleFree a), { s with free })
    else (.ok (), { s with free := free.push o a, freePages := s.freePages + 2 ^ order })

end BuddyAllocator

/-! ## Addresses and blocks -/

namespace BuddyConfig

variable {cfg : BuddyConfig} {b c : Block}

theorem Sound.maxOrder_pos (h : cfg.Sound) : 0 < cfg.maxOrder := by
  have hv := h.valid
  unfold validate at hv
  split at hv
  · cases hv
  · exact Nat.pos_of_ne_zero ‹_›

theorem Sound.pageSize_isPowerOfTwo (h : cfg.Sound) : ∃ k, cfg.pageSize = 2 ^ k := by
  have hv := h.valid
  unfold validate at hv
  split_ifs at hv with _ hzero hpow
  rw [ne_eq, not_not] at hpow
  exact (Nat.and_sub_one_eq_zero_iff_isPowerOfTwo hzero).mp hpow

theorem Sound.pageSize_pos (h : cfg.Sound) : 0 < cfg.pageSize := by
  obtain ⟨k, hk⟩ := h.pageSize_isPowerOfTwo
  rw [hk]
  exact Nat.two_pow_pos k

variable (cfg : BuddyConfig)

def addr (b : Block) : ℕ := b.first * cfg.pageSize

def blockAt (order addr : ℕ) : Block :=
  ⟨order, addr / (2 ^ order * cfg.pageSize)⟩

def InSpace (b : Block) : Prop :=
  (b.first + 2 ^ b.order) * cfg.pageSize ≤ 2 ^ 64

def size (b : Block) : ℕ := 2 ^ b.order * cfg.pageSize

theorem addr_eq (b : Block) :
    cfg.addr b = b.index * cfg.size b := Nat.mul_assoc _ _ _

variable {cfg}

theorem inSpace_iff : cfg.InSpace b ↔ (b.index + 1) * cfg.size b ≤ 2 ^ 64 := by
  rw [InSpace, size, first, ← Nat.mul_assoc, Nat.add_one_mul]

section

variable (h : cfg.Sound)
include h

theorem Sound.size_pos (b : Block) : 0 < cfg.size b :=
  Nat.mul_pos (Nat.two_pow_pos _) h.pageSize_pos

omit h in
theorem size_parent (cfg : BuddyConfig) (b : Block) : cfg.size b.parent = cfg.size b * 2 := by
  simp only [size, order_parent, pow_succ]
  ring

theorem blockAt_addr (b : Block) : cfg.blockAt b.order (cfg.addr b) = b := by
  refine Block.ext rfl ?_
  rw [addr_eq]
  exact Nat.mul_div_cancel _ (h.size_pos b)

theorem within_of_addr_eq (haddr : cfg.addr b = cfg.addr c) (ho : b.order ≤ c.order) :
    b.Within c := by
  have hfirst : b.first = c.first := Nat.eq_of_mul_eq_mul_right h.pageSize_pos haddr
  exact within_of_mem b.first_mem (hfirst ▸ c.first_mem) ho

theorem Sound.dvd (ho : b.order + 1 < cfg.maxOrder) : ∃ m, 2 ^ 64 = cfg.size b * (2 * m) := by
  obtain ⟨k, hk⟩ := h.pageSize_isPowerOfTwo
  have hfits := h.fits
  rw [hk, ← pow_add] at hfits
  have hlt : cfg.maxOrder - 1 + k < 64 := (Nat.pow_lt_pow_iff_right (by decide)).mp hfits
  refine ⟨2 ^ (63 - (b.order + k)), ?_⟩
  rw [size, hk, ← pow_add, ← pow_succ', ← pow_add]
  congr 1
  omega

section

variable (hb : cfg.InSpace b) (ho : b.order + 1 < cfg.maxOrder)
include hb ho

theorem InSpace.parent : cfg.InSpace b.parent := by
  obtain ⟨m, hm⟩ := h.dvd ho
  rw [inSpace_iff, hm, Nat.mul_comm (cfg.size b)] at hb
  rw [inSpace_iff, size_parent, hm]
  have hle := Nat.le_of_mul_le_mul_right hb (h.size_pos b)
  have hhalf : b.parent.index + 1 ≤ m := by
    simp only [parent]
    omega
  calc (b.parent.index + 1) * (cfg.size b * 2)
      ≤ m * (cfg.size b * 2) := Nat.mul_le_mul_right _ hhalf
    _ = cfg.size b * (2 * m) := by ring

omit ho in
omit h in
theorem InSpace.mono (h : c.Within b) : cfg.InSpace c := by
  refine le_trans (Nat.mul_le_mul_right _ ?_) hb
  have hpos := Nat.two_pow_pos c.order
  have hlast : c.first + (2 ^ c.order - 1) ∈ b := h _ (mem_iff.mpr (by omega))
  have := (mem_iff.mp hlast).2
  omega

theorem InSpace.buddy : cfg.InSpace b.buddy :=
  (hb.parent h ho).mono fun _ hp => mem_parent_iff.mpr (.inr hp)

omit ho in
theorem addr_lt : cfg.addr b < 2 ^ 64 := by
  have hpos := h.size_pos b
  rw [inSpace_iff, Nat.add_one_mul] at hb
  rw [addr_eq]
  omega

theorem buddyAddr_addr : cfg.buddyAddr (cfg.addr b) b.order = cfg.addr b.buddy := by
  have hpos := h.size_pos b
  have hlt := addr_lt h (hb.buddy h ho)
  have hbuddy : cfg.addr b.buddy = b.buddy.index * cfg.size b := addr_eq cfg b.buddy
  rw [hbuddy] at hlt ⊢
  have hunfold : cfg.buddyAddr (cfg.addr b) b.order =
      if cfg.addr b % (cfg.size b * 2) = 0 then (cfg.addr b + cfg.size b) % 2 ^ 64
      else (cfg.addr b + 2 ^ 64 - cfg.size b) % 2 ^ 64 := rfl
  rw [hunfold, addr_eq]
  by_cases heven : b.index % 2 = 0
  · have hdiv : b.index * cfg.size b % (cfg.size b * 2) = 0 := by
      rw [Nat.mul_comm, Nat.mul_mod_mul_left, heven, Nat.mul_zero]
    rw [buddy_of_even heven, Nat.add_one_mul] at hlt ⊢
    rw [if_pos hdiv, Nat.mod_eq_of_lt hlt]
  · have hdiv : b.index * cfg.size b % (cfg.size b * 2) ≠ 0 := by
      rw [Nat.mul_comm, Nat.mul_mod_mul_left]
      exact Nat.mul_ne_zero hpos.ne' heven
    rw [buddy_of_odd heven, Nat.sub_one_mul] at hlt ⊢
    have hle : cfg.size b ≤ b.index * cfg.size b := Nat.le_mul_of_pos_left _ (by omega)
    rw [if_neg hdiv, Nat.add_comm, Nat.add_sub_assoc hle, Nat.add_mod_left, Nat.mod_eq_of_lt hlt]

end

end

theorem min_addr_buddy (b : Block) : min (cfg.addr b) (cfg.addr b.buddy) = cfg.addr b.parent := by
  have hsize : cfg.size b.buddy = cfg.size b := rfl
  rw [addr_eq, addr_eq, addr_eq, size_parent, hsize]
  by_cases heven : b.index % 2 = 0
  · rw [buddy_of_even heven, Nat.min_eq_left (Nat.mul_le_mul_right _ (by omega))]
    calc b.index * cfg.size b = 2 * (b.index / 2) * cfg.size b := by
          rw [Nat.mul_div_cancel' (Nat.dvd_of_mod_eq_zero heven)]
      _ = b.parent.index * (cfg.size b * 2) := by
          simp only [parent]
          ring
  · rw [buddy_of_odd heven, Nat.min_eq_right (Nat.mul_le_mul_right _ (by omega))]
    calc (b.index - 1) * cfg.size b = 2 * (b.index / 2) * cfg.size b := by
          congr 1
          omega
      _ = b.parent.index * (cfg.size b * 2) := by
          simp only [parent]
          ring

end BuddyConfig

/-! ## The free lists as a list of blocks -/

variable {l : List ℕ}

theorem perm_pop (h : l ≠ []) : l.Perm (l.getLastD 0 :: l.dropLast) := by
  have hlast : l.dropLast ++ [l.getLastD 0] = l := by
    rw [getLastD_eq_getLast?, getLast?_eq_some_getLast h]
    exact dropLast_append_getLast h
  have hperm := perm_append_singleton (l.getLastD 0) l.dropLast
  rwa [hlast] at hperm

theorem perm_swapRemove {a pos : ℕ} (h : l.idxOf? a = some pos) :
    l.Perm (a :: swapRemove l pos) := by
  obtain ⟨hpos, hget, -⟩ := idxOf?_eq_some_iff.mp h
  -- The list is cut at the position; what is behind it is empty or ends with the last element.
  have hcut : l = l.take pos ++ a :: l.drop (pos + 1) := by
    rw [← hget, cons_getElem_drop_succ, take_append_drop]
  have hset : ∀ z, l.set pos z = l.take pos ++ z :: l.drop (pos + 1) := by
    intro z
    rw [set_eq_take_append_cons_drop, if_pos hpos]
  unfold swapRemove
  rw [hset, dropLast_append_cons]
  generalize l.take pos = front at hcut ⊢
  generalize l.drop (pos + 1) = back at hcut ⊢
  subst hcut
  rcases eq_nil_or_concat' back with rfl | ⟨mid, z, rfl⟩
  · simp [perm_append_singleton]
  have hlast : (front ++ a :: (mid ++ [z])).getLastD 0 = z := by
    rw [← cons_append, ← append_assoc, getLastD_concat]
  have hdrop : (z :: (mid ++ [z])).dropLast = z :: mid := by
    rw [← cons_append, dropLast_concat]
  rw [hlast, hdrop]
  refine perm_middle.trans (List.Perm.cons a ?_)
  exact (perm_append_singleton z mid).append_left front

theorem flatMap_perm_cons {α : Type} {f g : ℕ → List α} {x : α} {o : ℕ} {orders : List ℕ}
    (hnodup : orders.Nodup) (ho : o ∈ orders) (hother : ∀ i, i ≠ o → f i = g i)
    (hone : (f o).Perm (x :: g o)) : (orders.flatMap f).Perm (x :: orders.flatMap g) := by
  induction orders with
  | nil => cases ho
  | cons i orders ih =>
    rw [flatMap_cons, flatMap_cons]
    obtain ⟨hi, hrest⟩ := nodup_cons.mp hnodup
    by_cases hio : i = o
    · subst hio
      have hsame : orders.flatMap f = orders.flatMap g := by
        refine flatMap_congr fun j hj => hother j ?_
        rintro rfl
        exact hi hj
      rw [hsame]
      exact hone.append_right _
    · rw [hother i hio]
      have hmem : o ∈ orders := (mem_cons.mp ho).resolve_left (Ne.symm hio)
      exact ((ih hrest hmem).append_left _).trans perm_middle

def FreeLists.blocks (cfg : BuddyConfig) (free : FreeLists) : List Block :=
  (List.range cfg.maxOrder).flatMap fun o => (free o).map (cfg.blockAt o)

def FreeLists.Aligned (cfg : BuddyConfig) (free : FreeLists) : Prop :=
  ∀ o < cfg.maxOrder, ∀ a ∈ free o, ∃ b : Block, b.order = o ∧ cfg.addr b = a ∧
    cfg.InSpace b

namespace FreeLists

variable {cfg : BuddyConfig} {free : FreeLists} {b : Block} {o a : ℕ}

theorem blocks_push (free : FreeLists) (h : cfg.Sound) (hb : b.order < cfg.maxOrder) :
    ((free.push b.order (cfg.addr b)).blocks cfg).Perm (b :: free.blocks cfg) := by
  refine flatMap_perm_cons nodup_range (mem_range.mpr hb) ?_ ?_
  · intro i hi
    rw [push, update_of_ne hi]
  · rw [push, update_self, map_append, map_singleton, BuddyConfig.blockAt_addr h]
    exact perm_append_singleton _ _

theorem blocks_remove (h : cfg.Sound) (hb : b.order < cfg.maxOrder)
    (hl : (free b.order).Perm (cfg.addr b :: l)) :
    (free.blocks cfg).Perm (b :: blocks cfg (update free b.order l)) := by
  refine flatMap_perm_cons nodup_range (mem_range.mpr hb) ?_ ?_
  · intro i hi
    rw [update_of_ne hi]
  · rw [update_self]
    have hmap := hl.map (cfg.blockAt b.order)
    rwa [map_cons, BuddyConfig.blockAt_addr h] at hmap

theorem mem_blocks_iff (h : cfg.Sound) (hfree : free.Aligned cfg) :
    b ∈ free.blocks cfg ↔ b.order < cfg.maxOrder ∧ cfg.addr b ∈ free b.order := by
  simp only [blocks, mem_flatMap, mem_range, mem_map]
  constructor
  · rintro ⟨o, ho, a, ha, rfl⟩
    obtain ⟨c, rfl, rfl, -⟩ := hfree o ho a ha
    rw [BuddyConfig.blockAt_addr h]
    exact ⟨ho, ha⟩
  · rintro ⟨ho, ha⟩
    exact ⟨b.order, ho, cfg.addr b, ha, BuddyConfig.blockAt_addr h b⟩

theorem Aligned.push (hfree : free.Aligned cfg) (hb : cfg.InSpace b) :
    (free.push b.order (cfg.addr b)).Aligned cfg := by
  intro o ho a ha
  by_cases hob : o = b.order
  · subst hob
    rw [FreeLists.push, update_self, mem_append, mem_singleton] at ha
    rcases ha with ha | rfl
    · exact hfree _ ho a ha
    · exact ⟨b, rfl, rfl, hb⟩
  · rw [FreeLists.push, update_of_ne hob] at ha
    exact hfree o ho a ha

theorem Aligned.update (hfree : free.Aligned cfg) (hl : ∀ a ∈ l, a ∈ free o) :
    Aligned cfg (update free o l) := by
  intro i hi a ha
  by_cases hio : i = o
  · subst hio
    rw [update_self] at ha
    exact hfree i hi a (hl a ha)
  · rw [update_of_ne hio] at ha
    exact hfree i hi a ha

end FreeLists

/-! ## The loops on blocks -/

variable {pages order first : ℕ}

namespace BuddyConfig

variable {cfg : BuddyConfig} {free : FreeLists} {b : Block}

structure Split (cfg : BuddyConfig) (free : FreeLists) (b : Block) (order : ℕ)
    (out : FreeLists) (taken : Block) (halves : List Block) : Prop where
  order_eq : taken.order = order
  addr : cfg.addr taken = cfg.addr b
  inSpace : cfg.InSpace taken
  aligned : out.Aligned cfg
  perm : (out.blocks cfg).Perm (halves ++ free.blocks cfg)
  weight : ∀ w, Block.Additive w → weigh w halves + w taken = w b
  buddies : ∀ h ∈ halves, taken.Within h.buddy

theorem exists_split (h : cfg.Sound) (hfree : free.Aligned cfg) (hb : cfg.InSpace b)
    (hlt : b.order < cfg.maxOrder) (hle : order ≤ b.order) :
    ∃ taken halves, cfg.Split free b order
      (cfg.splitLoop order (cfg.addr b) b.order free) taken halves := by
  induction hco : b.order generalizing b free with
  | zero =>
    refine ⟨b, [], by omega, rfl, hb, hfree, .refl _, fun w _ => by simp, by simp⟩
  | succ co ih =>
    unfold splitLoop
    by_cases hstop : order < co + 1
    · rw [if_pos hstop]
      -- The two halves of the block: the first one is split on, the second one is free.
      have hlow : (⟨co, 2 * b.index⟩ : Block).parent = b :=
        Block.ext hco.symm (Nat.mul_div_cancel_left _ (by decide))
      generalize hc : (⟨co, 2 * b.index⟩ : Block) = c at hlow
      have hcorder : c.order = co := by rw [← hc]
      have heven : c.index % 2 = 0 := by rw [← hc]; exact Nat.mul_mod_right _ _
      have hcspace : cfg.InSpace c := hb.mono (hlow ▸ c.within_parent)
      have hdspace : cfg.InSpace c.buddy := hcspace.buddy h (by omega)
      have hcaddr : cfg.addr c = cfg.addr b := by
        rw [← hlow, ← min_addr_buddy, Nat.min_eq_left]
        rw [addr_eq, addr_eq, buddy_of_even heven]
        exact Nat.mul_le_mul_right _ (Nat.le_succ _)
      have hdaddr : (cfg.addr b + 2 ^ co * cfg.pageSize) % 2 ^ 64 =
          cfg.addr c.buddy := by
        have hsize : cfg.size c = 2 ^ co * cfg.pageSize := by rw [size, hcorder]
        have hsum : cfg.addr b + 2 ^ co * cfg.pageSize = cfg.addr c.buddy := by
          have hbuddy : cfg.size c.buddy = cfg.size c := rfl
          rw [← hcaddr, addr_eq, addr_eq, hbuddy, buddy_of_even heven, Nat.add_one_mul, hsize]
        rw [hsum, Nat.mod_eq_of_lt (addr_lt h hdspace)]
      have hdorder : c.buddy.order = co := hcorder
      rw [hdaddr, ← hcaddr]
      have hpush : (free.push co (cfg.addr c.buddy)).Aligned cfg := hdorder ▸ hfree.push hdspace
      obtain ⟨taken, halves, hs⟩ := ih hpush hcspace (by omega) (by omega) hcorder
      refine ⟨taken, c.buddy :: halves, hs.order_eq, hs.addr.trans hcaddr, hs.inSpace, hs.aligned,
        ?_, ?_, ?_⟩
      · have hblocks := FreeLists.blocks_push free h (b := c.buddy) (by rw [hdorder]; omega)
        rw [hdorder] at hblocks
        calc (cfg.splitLoop order (cfg.addr c) co _).blocks cfg
            |>.Perm (halves ++ (free.push co (cfg.addr c.buddy)).blocks cfg) := hs.perm
          _ |>.Perm (halves ++ (c.buddy :: free.blocks cfg)) := hblocks.append_left _
          _ |>.Perm (c.buddy :: halves ++ free.blocks cfg) := perm_middle
      · intro w hw
        rw [weigh_cons, ← hlow, hw c]
        have := hs.weight w hw
        omega
      · intro g hg
        rcases mem_cons.mp hg with rfl | hg
        · rw [buddy_buddy]
          refine within_of_addr_eq h hs.addr ?_
          rw [hs.order_eq, hcorder]
          omega
        · exact hs.buddies g hg
    · rw [if_neg hstop]
      exact ⟨b, [], by omega, rfl, hb, hfree, .refl _, fun w _ => by simp, by simp⟩

structure Merged (cfg : BuddyConfig) (free : FreeLists) (b : Block) (out : FreeLists)
    (merged : Block) (buddies : List Block) : Prop where
  order_lt : merged.order < cfg.maxOrder
  inSpace : cfg.InSpace merged
  within : b.Within merged
  aligned : out.Aligned cfg
  perm : (free.blocks cfg).Perm (buddies ++ out.blocks cfg)
  weight : ∀ w, Block.Additive w → w merged = w b + weigh w buddies
  stops : merged.order + 1 < cfg.maxOrder → merged.buddy ∉ out.blocks cfg
  parent : b.order + 1 < cfg.maxOrder → b.buddy ∈ free.blocks cfg → b.parent.Within merged

theorem exists_merged (h : cfg.Sound) (hfree : free.Aligned cfg) (hb : cfg.InSpace b)
    {above : ℕ} (habove : b.order + above + 1 = cfg.maxOrder) :
    ∃ out merged buddies,
      cfg.mergeLoop above (cfg.addr b) b.order free =
        (cfg.addr merged, merged.order, out) ∧ cfg.Merged free b out merged buddies := by
  induction above generalizing b free with
  | zero =>
    exact ⟨free, b, [], rfl, by omega, hb, .refl b, hfree, .refl _, fun w _ => by simp,
      by omega, by omega⟩
  | succ _ ih =>
    have hbuddy := buddyAddr_addr h hb (by omega)
    unfold mergeLoop
    simp only [hbuddy]
    cases hpos : (free b.order).idxOf? (cfg.addr b.buddy) with
    | none =>
      have hnot : b.buddy ∉ free.blocks cfg := by
        rw [FreeLists.mem_blocks_iff h hfree]
        rintro ⟨-, hmem⟩
        exact idxOf?_eq_none_iff.mp hpos hmem
      exact ⟨free, b, [], rfl, by omega, hb, .refl b, hfree, .refl _, fun w _ => by simp,
        fun _ => hnot, fun _ hmem => absurd hmem hnot⟩
    | some pos =>
      have hperm := perm_swapRemove hpos
      rw [min_addr_buddy]
      have hkept : ∀ a ∈ swapRemove (free b.order) pos, a ∈ free b.order := by
        intro a ha
        exact hperm.mem_iff.mpr (mem_cons_of_mem _ ha)
      obtain ⟨out, merged, buddies, heq, hm⟩ := ih (b := b.parent) (hfree.update hkept)
        (hb.parent h (by omega)) (by rw [order_parent]; omega)
      have hblocks := FreeLists.blocks_remove (b := b.buddy) h (by rw [order_buddy]; omega) hperm
      refine ⟨out, merged, b.buddy :: buddies, heq, hm.order_lt, hm.inSpace, ?_, hm.aligned,
        ?_, ?_, hm.stops, fun _ _ => hm.within⟩
      · intro p hp
        exact hm.within p (b.within_parent p hp)
      · exact hblocks.trans (hm.perm.cons _)
      · intro w hw
        rw [hm.weight w hw, hw b, weigh_cons, Nat.add_assoc]

theorem fitOrder_spec (cfg : BuddyConfig) {addr rem : ℕ} (hrem : 0 < rem)
    (haddr : addr % cfg.pageSize = 0) (top : ℕ) :
    cfg.fitOrder addr rem top ≤ top ∧ 2 ^ cfg.fitOrder addr rem top ≤ rem ∧
      addr % (2 ^ cfg.fitOrder addr rem top * cfg.pageSize) = 0 ∧
      ∀ o, cfg.fitOrder addr rem top < o → o ≤ top → 2 ^ o ≤ rem →
        addr % (2 ^ o * cfg.pageSize) ≠ 0 := by
  induction top with
  | zero =>
    refine ⟨le_rfl, hrem, ?_, fun o hlt hle => ?_⟩
    · simpa [fitOrder] using haddr
    · simp only [fitOrder] at hlt
      omega
  | succ top ih =>
    unfold fitOrder
    by_cases hfit : 2 ^ (top + 1) ≤ rem ∧ addr % (2 ^ (top + 1) * cfg.pageSize) = 0
    · rw [if_pos hfit]
      exact ⟨le_rfl, hfit.1, hfit.2, fun o hlt hle => absurd hle (by omega)⟩
    rw [if_neg hfit]
    refine ⟨ih.1.trans (Nat.le_succ _), ih.2.1, ih.2.2.1, ?_⟩
    intro o hlt hle hsize
    rcases Nat.lt_or_ge top o with htop | htop
    · obtain rfl : o = top + 1 := by omega
      exact fun hdvd => hfit ⟨hsize, hdvd⟩
    · exact ih.2.2.2 o hlt htop hsize

structure Laid (cfg : BuddyConfig) (free : FreeLists) (first pages : ℕ) (out : FreeLists)
    (blocks : List Block) : Prop where
  aligned : out.Aligned cfg
  perm : (out.blocks cfg).Perm (blocks ++ free.blocks cfg)
  cover : ∀ p, cover blocks p = if first ≤ p ∧ p < first + pages then 1 else 0
  size : weigh (fun b => 2 ^ b.order) blocks = pages
  reduced : Reduced cfg.maxOrder {b | b ∈ blocks}

theorem Laid.bounds {out : FreeLists} {blocks : List Block}
    (h : cfg.Laid free first pages out blocks) (hb : b ∈ blocks) {p : ℕ} (hp : p ∈ b) :
    first ≤ p ∧ p < first + pages := by
  have hpos := cover_pos_iff.mpr ⟨b, hb, hp⟩
  rw [h.cover] at hpos
  by_contra hnot
  rw [if_neg hnot] at hpos
  exact absurd hpos (by decide)

theorem addLoop_zero (turns addr : ℕ) : cfg.addLoop turns free addr 0 = free := by
  cases turns <;> rfl

theorem laid_nil (hfree : free.Aligned cfg) (first : ℕ) :
    cfg.Laid free first 0 free [] where
  aligned := hfree
  perm := .refl _
  cover := fun p => (if_neg (by omega)).symm
  size := rfl
  reduced := ⟨by simp, by simp⟩

theorem buddy_notMem_rest {out : FreeLists} {rest : List Block} (hfirst : b.first = first)
    (hle : 2 ^ b.order ≤ pages) (hmax : 2 ^ (b.order + 1) ≤ pages → first % 2 ^ (b.order + 1) ≠ 0)
    (hrest : cfg.Laid free (first + 2 ^ b.order) (pages - 2 ^ b.order) out rest) :
    b.buddy ∉ rest := by
  intro hmem
  have hpos := Nat.two_pow_pos b.order
  have hlow := (hrest.bounds hmem b.buddy.first_mem).1
  have hlast : b.buddy.first + (2 ^ b.order - 1) ∈ b.buddy :=
    mem_iff.mpr ⟨Nat.le_add_right _ _, by rw [order_buddy]; omega⟩
  have hhigh := (hrest.bounds hmem hlast).2
  have hbuddy : b.buddy.first = b.buddy.index * 2 ^ b.order := rfl
  have hindex : b.index * 2 ^ b.order = first := hfirst
  by_cases heven : b.index % 2 = 0
  · rw [buddy_of_even heven, Nat.add_one_mul, hindex] at hbuddy
    refine hmax (by rw [pow_succ]; omega) ?_
    rw [← hindex, pow_succ, Nat.mul_comm b.index, Nat.mul_mod_mul_left, heven, Nat.mul_zero]
  · rw [buddy_of_odd heven, Nat.sub_one_mul, hindex] at hbuddy
    omega

theorem exists_laid (h : cfg.Sound) (hfree : free.Aligned cfg) {turns : ℕ}
    (hturns : pages ≤ turns) (hspace : (first + pages) * cfg.pageSize ≤ 2 ^ 64) :
    ∃ blocks, cfg.Laid free first pages
      (cfg.addLoop turns free (first * cfg.pageSize) pages) blocks := by
  induction turns generalizing free first pages with
  | zero =>
    obtain rfl : pages = 0 := by omega
    exact ⟨[], laid_nil hfree first⟩
  | succ turns ih =>
    by_cases hzero : pages = 0
    · subst hzero
      rw [addLoop_zero]
      exact ⟨[], laid_nil hfree first⟩
    unfold addLoop
    rw [if_neg hzero]
    obtain ⟨htop, hsize, hdvd, hmax⟩ := cfg.fitOrder_spec (Nat.pos_of_ne_zero hzero)
      (Nat.mul_mod_left first cfg.pageSize) (cfg.maxOrder - 1)
    generalize cfg.fitOrder (first * cfg.pageSize) pages (cfg.maxOrder - 1) = o
      at htop hsize hdvd hmax
    have hK := h.maxOrder_pos
    have hps := h.pageSize_pos
    have hpow := Nat.two_pow_pos o
    have hmod : ∀ k, first * cfg.pageSize % (2 ^ k * cfg.pageSize) =
        first % 2 ^ k * cfg.pageSize := fun k => Nat.mul_mod_mul_right _ _ _
    have hzmod : first % 2 ^ o = 0 := by
      rw [hmod] at hdvd
      exact (Nat.mul_eq_zero.mp hdvd).resolve_right hps.ne'
    -- The block of this turn.
    obtain ⟨b, rfl, hfirst⟩ : ∃ b : Block, b.order = o ∧ b.first = first :=
      ⟨⟨o, first / 2 ^ o⟩, rfl, Nat.div_mul_cancel (Nat.dvd_of_mod_eq_zero hzmod)⟩
    have haddr : cfg.addr b = first * cfg.pageSize := by rw [addr, hfirst]
    have hbspace : cfg.InSpace b := by
      rw [InSpace, hfirst]
      exact le_trans (Nat.mul_le_mul_right _ (by omega)) hspace
    have hspace' : (first + 2 ^ b.order + (pages - 2 ^ b.order)) * cfg.pageSize ≤ 2 ^ 64 := by
      rwa [Nat.add_assoc, Nat.add_sub_cancel' hsize]
    have hturns' : pages - 2 ^ b.order ≤ turns := by omega
    obtain ⟨rest, hrest⟩ := ih (hfree.push hbspace) hturns' hspace'
    -- The next address wraps only behind the last block.
    have hnext : cfg.addLoop turns (free.push b.order (cfg.addr b))
        ((first * cfg.pageSize + 2 ^ b.order * cfg.pageSize) % 2 ^ 64)
        (pages - 2 ^ b.order) =
        cfg.addLoop turns (free.push b.order (cfg.addr b))
          ((first + 2 ^ b.order) * cfg.pageSize) (pages - 2 ^ b.order) := by
      by_cases hlast : pages - 2 ^ b.order = 0
      · rw [hlast, addLoop_zero, addLoop_zero]
      have hlt : (first + 2 ^ b.order) * cfg.pageSize < 2 ^ 64 := by
        refine lt_of_lt_of_le (Nat.mul_lt_mul_of_pos_right ?_ hps) hspace'
        omega
      rw [← Nat.add_mul, Nat.mod_eq_of_lt hlt]
    rw [← haddr] at hnext ⊢
    rw [hnext]
    refine ⟨b :: rest, hrest.aligned, ?_, ?_, ?_, ?_, ?_⟩
    · have hpush := FreeLists.blocks_push free (b := b) h (by omega)
      exact (hrest.perm.trans (hpush.append_left _)).trans perm_middle
    · intro p
      have hcons : cover (b :: rest) p =
          (if p ∈ b then 1 else 0) + cover rest p := rfl
      rw [hcons, hrest.cover]
      simp only [mem_iff, hfirst]
      split_ifs <;> omega
    · rw [weigh_cons, hrest.size]
      omega
    · intro c hc
      rcases mem_cons.mp hc with rfl | hc
      · omega
      · exact hrest.reduced.order_lt c hc
    have hno : b.order + 1 < cfg.maxOrder → b.buddy ∉ rest := by
      intro hlt
      refine buddy_notMem_rest hfirst hsize (fun hroom hdiv => ?_) hrest
      refine hmax (b.order + 1) (Nat.lt_succ_self _) (by omega) hroom ?_
      rw [hmod, hdiv, Nat.zero_mul]
    intro c hc hlt hmem
    rcases mem_cons.mp hc with rfl | hc
    · rcases mem_cons.mp hmem with heq | hmem
      · exact c.buddy_ne heq
      · exact hno hlt hmem
    · rcases mem_cons.mp hmem with heq | hmem
      · refine hno (by rw [← heq]; exact hlt) ?_
        rwa [← heq, buddy_buddy]
      · exact hrest.reduced.buddy c hc hlt hmem

end BuddyConfig

/-! ## The operations on blocks -/

namespace BuddyAllocator

variable {s : BuddyAllocator} {b : Block}

def freeBlocks (s : BuddyAllocator) : List Block := s.free.blocks s.config

theorem alloc_cases (horder : order < s.config.maxOrder) :
    (s.alloc order = (.error (.allocationFailed order), s) ∧
        ∀ fo, order ≤ fo → fo < s.config.maxOrder → s.free fo = []) ∨
      ∃ fo, order ≤ fo ∧ fo < s.config.maxOrder ∧ s.free fo ≠ [] ∧
        (∀ o, order ≤ o → o < fo → s.free o = []) ∧
        s.alloc order = (.ok ((s.free fo).getLastD 0), { s with
          free := s.config.splitLoop order ((s.free fo).getLastD 0) fo
            (update s.free fo (s.free fo).dropLast)
          freePages := s.freePages - 2 ^ order }) := by
  unfold alloc
  simp only [Nat.not_le.mpr horder, if_false]
  cases hfind : (range' order (s.config.maxOrder - order)).find? (s.free · ≠ []) with
  | none =>
    refine .inl ⟨rfl, ?_⟩
    intro fo hle hlt
    have hnone := find?_eq_none.mp hfind fo (mem_range'_1.mpr (by omega))
    simpa using hnone
  | some fo =>
    obtain ⟨hne, hmem, hbelow⟩ := find?_range'_eq_some.mp hfind
    rw [mem_range'_1] at hmem
    refine .inr ⟨fo, hmem.1, by omega, by simpa using hne, ?_, rfl⟩
    intro o hle hlt
    simpa using hbelow o hle hlt

theorem alloc_of_ne_nil (horder : order < s.config.maxOrder) (hne : s.free order ≠ []) :
    s.alloc order = (.ok ((s.free order).getLastD 0), { s with
      free := update s.free order (s.free order).dropLast
      freePages := s.freePages - 2 ^ order }) := by
  rcases alloc_cases horder with ⟨-, hempty⟩ | ⟨fo, hle, -, -, hbelow, heq⟩
  · exact absurd (hempty order le_rfl horder) hne
  obtain rfl : order = fo := by
    by_contra hlt
    exact hne (hbelow order le_rfl (by omega))
  have hnone : ∀ addr free, s.config.splitLoop order addr order free = free := by
    intro addr free
    cases order with
    | zero => rfl
    | succ => exact if_neg (Nat.lt_irrefl _)
  rw [heq, hnone]

/-- What `alloc` does to the blocks: one goes, and the halves that were cut off it come. -/
structure Allocated (s : BuddyAllocator) (order : ℕ) (s' : BuddyAllocator) (taken whole : Block)
    (halves rest : List Block) : Prop where
  config : s'.config = s.config
  order_eq : taken.order = order
  inSpace : s.config.InSpace taken
  aligned : s'.free.Aligned s.config
  before : s.freeBlocks.Perm (whole :: rest)
  after : s'.freeBlocks.Perm (halves ++ rest)
  weight : ∀ w, Block.Additive w → weigh w halves + w taken = w whole
  buddies : ∀ h ∈ halves, taken.Within h.buddy
  freePages : s'.freePages = s.freePages - 2 ^ order

theorem Allocated.weigh {taken whole : Block} {halves rest : List Block} {w : Block → ℕ}
    (ha : s.Allocated order s' taken whole halves rest) (hw : Block.Additive w) :
    weigh w s'.freeBlocks + w taken = weigh w s.freeBlocks := by
  rw [weigh_perm ha.before, weigh_perm ha.after, weigh_append, weigh_cons, ← ha.weight w hw]
  omega

theorem exists_allocated (h : s.config.Sound) (hfree : s.free.Aligned s.config)
    (horder : order < s.config.maxOrder) : (s.alloc order = (.error (.allocationFailed order), s) ∧
        ∀ b ∈ s.freeBlocks, b.order < order) ∨
      ∃ s' taken whole halves rest, s.alloc order = (.ok (s.config.addr taken), s') ∧
        s.Allocated order s' taken whole halves rest := by
  rcases alloc_cases horder with ⟨hfail, hempty⟩ | ⟨fo, hle, hlt, hne, -, heq⟩
  · refine .inl ⟨hfail, ?_⟩
    intro b hb
    obtain ⟨hb, hmem⟩ := (FreeLists.mem_blocks_iff h hfree).mp hb
    by_contra hge
    rw [hempty b.order (Nat.not_lt.mp hge) hb] at hmem
    cases hmem
  have hpop := perm_pop hne
  have hlast : (s.free fo).getLastD 0 ∈ s.free fo := hpop.mem_iff.mpr (mem_cons_self ..)
  obtain ⟨whole, rfl, haddr, hspace⟩ := hfree fo hlt _ hlast
  rw [← haddr] at hpop heq
  have hrest : ∀ a ∈ (s.free whole.order).dropLast, a ∈ s.free whole.order :=
    fun a ha => dropLast_subset _ ha
  obtain ⟨taken, halves, hs⟩ := BuddyConfig.exists_split h (hfree.update hrest) hspace hlt hle
  rw [← hs.addr] at heq
  refine .inr ⟨_, taken, whole, halves, _, heq, rfl, hs.order_eq, hs.inSpace, ?_,
    FreeLists.blocks_remove h hlt hpop, ?_, hs.weight, hs.buddies, rfl⟩
  · rw [hs.addr]
    exact hs.aligned
  · rw [hs.addr]
    exact hs.perm

theorem exists_popped (h : s.config.Sound) (hfree : s.free.Aligned s.config)
    (hb : b ∈ s.freeBlocks) :
    ∃ s' taken, s.alloc b.order = (.ok (s.config.addr taken), s') ∧ taken.order = b.order ∧
      s.freeBlocks.Perm (taken :: s'.freeBlocks) := by
  obtain ⟨horder, hmem⟩ := (FreeLists.mem_blocks_iff h hfree).mp hb
  have hne := ne_nil_of_mem hmem
  have hpop := perm_pop hne
  obtain ⟨taken, htaken, haddr, -⟩ := hfree b.order horder _ (hpop.mem_iff.mpr (mem_cons_self ..))
  have hok := alloc_of_ne_nil horder hne
  rw [← haddr] at hok hpop
  refine ⟨_, taken, hok, htaken, ?_⟩
  rw [← htaken] at horder hpop ⊢
  exact FreeLists.blocks_remove h horder hpop

/-- What `free` does to the blocks: the buddies go, and the block merged from them comes. -/
structure Freed (s : BuddyAllocator) (b : Block) (s' : BuddyAllocator) (merged : Block)
    (buddies rest : List Block) : Prop where
  config : s'.config = s.config
  order_lt : merged.order < s.config.maxOrder
  inSpace : s.config.InSpace merged
  within : b.Within merged
  aligned : s'.free.Aligned s.config
  before : s.freeBlocks.Perm (buddies ++ rest)
  after : s'.freeBlocks.Perm (merged :: rest)
  weight : ∀ w, Block.Additive w → w merged = w b + weigh w buddies
  stops : merged.order + 1 < s.config.maxOrder → merged.buddy ∉ rest
  parent : b.order + 1 < s.config.maxOrder → b.buddy ∈ s.freeBlocks → b.parent.Within merged
  freePages : s'.freePages = s.freePages + 2 ^ b.order

theorem Freed.weigh {merged : Block} {buddies rest : List Block} {w : Block → ℕ}
    (hf : s.Freed b s' merged buddies rest) (hw : Block.Additive w) :
    weigh w s'.freeBlocks = weigh w s.freeBlocks + w b := by
  rw [weigh_perm hf.before, weigh_perm hf.after, weigh_append, weigh_cons, hf.weight w hw]
  omega

theorem exists_freed (h : s.config.Sound) (hfree : s.free.Aligned s.config)
    (hb : s.config.InSpace b) (horder : b.order < s.config.maxOrder)
    (hdisj : ∀ p, cover (b :: s.freeBlocks) p ≤ 1) :
    ∃ s' merged buddies rest, s.freeBlock (s.config.addr b) b.order = (.ok (), s') ∧
      s.Freed b s' merged buddies rest := by
  have habove : b.order + (s.config.maxOrder - 1 - b.order) + 1 = s.config.maxOrder := by omega
  obtain ⟨out, merged, buddies, heq, hm⟩ := BuddyConfig.exists_merged h hfree hb habove
  -- All pages of the merged block are counted once already, so that it is not on the lists.
  have hnot : s.config.addr merged ∉ out merged.order := by
    intro hmem
    have hin : merged ∈ out.blocks s.config :=
      (FreeLists.mem_blocks_iff h hm.aligned).mpr ⟨hm.order_lt, hmem⟩
    have hone := hdisj merged.first
    have hadd := hm.weight _ (additive_mem merged.first)
    have hperm : cover s.freeBlocks merged.first = _ := weigh_perm hm.perm
    rw [weigh_append] at hperm
    have hpos : 0 < cover (out.blocks s.config) merged.first :=
      cover_pos_iff.mpr ⟨merged, hin, merged.first_mem⟩
    rw [if_pos merged.first_mem] at hadd
    simp only [cover, weigh_cons] at hone hperm hpos
    omega
  have hmod : s.config.addr b % s.config.pageSize = 0 := Nat.mul_mod_left _ _
  refine ⟨{ s with
      free := out.push merged.order (s.config.addr merged)
      freePages := s.freePages + 2 ^ b.order }, merged, buddies, out.blocks s.config, ?_, rfl,
    hm.order_lt, hm.inSpace, hm.within, hm.aligned.push hm.inSpace, hm.perm,
    FreeLists.blocks_push out h hm.order_lt, hm.weight, hm.stops, hm.parent, rfl⟩
  simp [freeBlock, Nat.not_le.mpr horder, hmod, heq, hnot]

end BuddyAllocator

end IonaOs.Memory
