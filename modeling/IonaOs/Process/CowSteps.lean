import IonaOs.Process.CowSlots

/-!
# What a fault, a write and a fork do to the pages of a family
-/

namespace IonaOs.Process

open Lib Memory Function Entry Option Kernel PhysMem

namespace Ledger

variable {bg : Background} {strict : Bool} {members pending : List ℕ}
variable {T : Tables} {k k' : Kernel} {t f n p : ℕ} {i : Fin 512} {virt : UInt64}
variable {slot : ℕ × ℕ} {mem' : PhysMem}

/-! ## The fault -/

theorem setWritable_eq (k : Kernel) (t : ℕ) (i : Fin 512) (f : ℕ) :
    k.setWritable t i f = { k with mem := k.mem.write t i ((k.mem t i).granted f) } := rfl

theorem agrees_of_cell (hone : T.level t = 1)
    (hcell : ∀ u ∈ T.set, ∀ j, ¬ (u = t ∧ j = i) → mem' u j = k.mem u j) : T.Agrees k.mem mem' := by
  intro u hu hlevel j _
  refine hcell u hu j ?_
  rintro ⟨rfl, -⟩
  exact hlevel hone

section

variable (h : Ledger bg members T pending k)
include h

theorem claims (hat : At T members k.mem slot t i) (hpres : (k.mem t i).isPresent = true)
    (hrefs : k.frames.refs (k.mem t i).frame ≤ 1) (hk' : k' = k.setWritable t i (k.mem t i).frame) :
    Ledger bg members T pending k' ∧
      (sharing k members).Claims slot (sharing k' members) ∧
      (sharing k' members).writable slot = true := by
  have hlt := (k.mem t i).frame_lt
  have hmem : k'.mem = k.mem.write t i ((k.mem t i).granted (k.mem t i).frame) := by
    rw [hk', setWritable_eq]
  have hframes : k'.frames = k.frames := by rw [hk', setWritable_eq]
  have hself : k'.mem t i = (k.mem t i).granted (k.mem t i).frame := by
    rw [hmem, write_apply, if_pos ⟨rfl, rfl⟩]
  have hcell : ∀ u ∈ T.set, ∀ j, ¬ (u = t ∧ j = i) → k'.mem u j = k.mem u j := fun u _ j hne => by
    rw [hmem, write_apply, if_neg hne]
  have hagrees := agrees_of_cell hat.level hcell
  have hpres' : (k'.mem t i).isPresent = true := by
    rw [hself, isPresent_granted hlt, hpres]
  have hentry := entryAt_self hat hagrees hpres'
  have hother : ∀ other ≠ slot, entryAt k'.mem members other = entryAt k.mem members other :=
    fun _ hne => h.entryAt_of_ne hat hagrees hcell hne
  refine ⟨h.keeps hframes fun u _ j _ => ?_, ⟨h.alone_of_refs hat hpres hrefs, ?_, ?_, ?_⟩, ?_⟩
  · rw [hmem]
    refine keeps_write (.inr ⟨hpres, hself ▸ hpres', ?_, ?_⟩) u j
    · rw [isHuge_granted hlt]
    · rw [frame_granted hlt]
  · funext other
    by_cases hslot : other = slot
    · subst hslot
      rw [name_eq hat hpres, name_sharing, hentry, map_some, hself, frame_granted hlt]
    · rw [name_sharing, hother other hslot, name_sharing]
  · intro other hslot
    rw [writable_sharing, hother other hslot, writable_sharing]
  · intro other f hf
    obtain ⟨-, -, -, -, -, -, hnot⟩ := h.named hf
    have hne : f ≠ t := fun heq => hnot (heq ▸ hat.table)
    funext j
    rw [page_sharing, page_sharing, hmem, write_apply, if_neg fun heq => hne heq.1]
  · rw [writable_sharing, hentry, any_some, hself, isWritable_granted hlt]

theorem name_ne_of_free (hfree : k.frames.Free f) (slot : ℕ × ℕ) :
    (sharing k members).name slot ≠ some f := by
  intro hname
  obtain ⟨t, i, hat, -, -, hkid, -⟩ := h.named hname
  have hpos := h.one_le_refs hat.table hkid
  rw [h.sound.free f hfree] at hpos
  cases hpos

omit h in
theorem replace (h : Ledger bg members T (n :: pending) k) (ht : t ∈ T.set)
    (hone : T.level t = 1) (hpres : (k.mem t i).isPresent = true) (hnot : n ∉ T.set)
    (hothers : bg.others n = 0) (hlt : n < 2 ^ 40) (hne : (k.mem t i).frame ≠ n) :
    Ledger bg members T pending
      ((k.decRef (k.mem t i).frame).setWritable t i n) := by
  have hi : i ∈ indices (T.level t) := mem_indices (by rw [hone]; decide) i
  have hkid : (k.mem t i).frame ∈ T.kids k.mem t := Tables.mem_kids.mpr ⟨i, hi, hpres, rfl⟩
  have hpos := h.one_le_refs ht hkid
  have hold := (h.bottom t ht hone _ hkid).1
  have hpres' : ((k.mem t i).granted n).isPresent = true := by
    rw [isPresent_granted hlt, hpres]
  have hfits : Fits bg T t ((k.mem t i).granted n) := by
    refine ⟨?_, fun habsent => ?_, fun _ _ => ?_, fun _ habove => absurd hone habove⟩
    · rw [isHuge_granted hlt, h.plain t ht i hi hpres]
    · rw [hpres'] at habsent
      cases habsent
    · rw [frame_granted hlt]
      exact ⟨hnot, hothers⟩
  refine h.write ht hi hfits rfl (h.sound.freeFrame _) (h.returned.freeFrame h.sound _)
    (fun g => ?_) (fun u hu => ?_) fun u hu => ?_
  · rw [setWritable_eq, decRef, h.sound.refs_freeFrame, target_of_present hpres,
      target_of_present hpres', frame_granted hlt, List.count_cons]
    simp only [some.injEq, beq_iff_eq]
    by_cases hg : g = (k.mem t i).frame
    · subst hg
      rw [if_pos rfl, if_pos rfl, if_neg (Ne.symm hne)]
      omega
    · rw [if_neg hg, if_neg (Ne.symm hg)]
      omega
  · have hother : u ≠ (k.mem t i).frame := fun heq => hold (heq ▸ hu)
    rw [setWritable_eq, decRef, h.sound.refs_freeFrame, if_neg hother, h.single u hu]
  · obtain ⟨hmem, -, howner⟩ := h.owned u hu
    refine howner.imp_right fun hin => ?_
    exact (List.mem_cons.mp hin).resolve_left fun heq => hnot (heq ▸ hmem)

theorem moves {a : FrameAllocator}
    (hat : At T members k.mem slot t i) (hpres : (k.mem t i).isPresent = true)
    (hok : k.frames.allocateOne = (.ok n, a))
    (hk' : k' = ({ k with
      frames := a
      mem := update k.mem n (k.mem (k.mem t i).frame) }.decRef
        (k.mem t i).frame).setWritable t i n) :
    Ledger bg members T pending k' ∧
      (sharing k members).Moves slot n (sharing k' members) ∧
      (sharing k' members).writable slot = true := by
  obtain ⟨hpending, hnot, hothers, hsmall⟩ := h.allocateOne hok
  have hfree : k.frames.Free n := FrameAllocator.free_of_allocateOne h.sound.valid (by rw [hok])
  have hlt : n < 2 ^ 40 := hsmall.trans (by decide)
  have hnt : t ≠ n := fun heq => hnot (heq ▸ hat.table)
  have hfresh := h.name_ne_of_free hfree
  have hname := name_eq hat hpres
  have hne : (k.mem t i).frame ≠ n := fun heq => hfresh slot (heq ▸ hname)
  have hmem : ∀ u j, k'.mem u j = if u = t ∧ j = i then (k.mem t i).granted n
      else if u = n then k.mem (k.mem t i).frame j else k.mem u j := by
    intro u j
    simp only [hk', setWritable_eq, decRef, write_apply, update_of_ne hnt]
    by_cases hu : u = n
    · subst hu
      simp
    · simp [hu]
  have hself : k'.mem t i = (k.mem t i).granted n := by rw [hmem, if_pos ⟨rfl, rfl⟩]
  have hcell : ∀ u ∈ T.set, ∀ j, ¬ (u = t ∧ j = i) → k'.mem u j = k.mem u j := by
    intro u hu j hnot'
    have hun : u ≠ n := fun heq => hnot (heq ▸ hu)
    rw [hmem, if_neg hnot', if_neg hun]
  have hagrees := agrees_of_cell hat.level hcell
  have hentry := entryAt_self hat hagrees (by rw [hself, isPresent_granted hlt, hpres])
  have hother : ∀ other ≠ slot, entryAt k'.mem members other = entryAt k.mem members other :=
    fun _ hne => h.entryAt_of_ne hat hagrees hcell hne
  refine ⟨?_, ⟨hfresh, ?_, ?_, ?_, ?_, fun hnone => absurd (hname.symm.trans hnone) (by simp), ?_⟩,
    ?_⟩
  · rw [hk']
    have hcopied : Ledger bg members T (n :: pending)
        { k with frames := a, mem := update k.mem n (k.mem (k.mem t i).frame) } :=
      hpending.keeps rfl fun u hu j _ =>
        .inl (by simp [update_of_ne fun heq : u = n => hnot (heq ▸ hu)])
    have hsame : update k.mem n (k.mem (k.mem t i).frame) t i = k.mem t i := by
      rw [update_of_ne hnt]
    have hreplaced := hcopied.replace (i := i) hat.table hat.level
    simp only [hsame] at hreplaced
    exact hreplaced hpres hnot hothers hlt hne
  · rw [name_sharing, hentry, map_some, hself, frame_granted hlt]
  · intro other hslot
    rw [name_sharing, hother other hslot, name_sharing]
  · intro other hslot
    rw [writable_sharing, hother other hslot, writable_sharing]
  · intro f hf
    cases hname.symm.trans hf
    funext j
    rw [page_sharing, page_sharing, hmem, if_neg fun heq => hnt heq.1.symm, if_pos rfl]
  · intro other f hf
    obtain ⟨-, -, -, -, -, -, hpage⟩ := h.named hf
    have hft : f ≠ t := fun heq => hpage (heq ▸ hat.table)
    have hfn : f ≠ n := fun heq => hfresh other (heq ▸ hf)
    funext j
    rw [page_sharing, page_sharing, hmem, if_neg fun heq => hft heq.1, if_neg hfn]
  · rw [writable_sharing, hentry, any_some, hself, isWritable_granted hlt]

end

/-- The page has become writable, and every page reads as before. -/
structure Touched (bg : Background) (members : List ℕ) (T : Tables)
    (pending : List ℕ) (slot : ℕ × ℕ) (k k' : Kernel) : Prop where
  books : Ledger bg members T pending k'
  view : (sharing k' members).view = (sharing k members).view
  exclusive : (sharing k members).Exclusive → (sharing k' members).Exclusive
  writable : (sharing k' members).writable slot = true
  l4 : k'.l4 = k.l4

theorem copyOnWriteFault_eq (hat : At T members k.mem slot t i) (hl4 : k.l4 = slot.1)
    (hpage : virt.toNat / 4096 = slot.2) :
    k.copyOnWriteFault strict virt = k.copyOnWriteEntry strict t i := by
  obtain ⟨h4, h3, h2, ht⟩ := hat.leads
  have hindex : ∀ level, index level (pageAddr slot.2) = index level virt :=
    index_congr (by rw [toNat_pageAddr hat.page, hpage]; omega)
  simp only [Leads, hindex] at h4 h3 h2 ht
  rw [copyOnWriteFault, hl4, hat.index, hindex]
  simp [getTable, h4, h3, h2, ht]

section

variable (h : Ledger bg members T pending k)
include h

theorem copyOnWriteEntry_cases (hat : At T members k.mem slot t i)
    (hpres : (k.mem t i).isPresent = true) :
    k.copyOnWriteEntry strict t i = (false, k) ∨ ∃ k', k.copyOnWriteEntry strict t i = (true, k') ∧
      Touched bg members T pending slot k k' := by
  have hin : i ∈ indices (T.level t) := mem_indices (by rw [hat.level]; decide) i
  have hframe := frame?_of_plain strict hpres (h.plain t hat.table i hin hpres)
  simp only [copyOnWriteEntry, hpres, Bool.not_true, Bool.false_eq_true, if_false, hframe,
    getRef_eq h.sound]
  by_cases hrefs : k.frames.refs (k.mem t i).frame ≤ 1
  · rw [if_pos hrefs]
    obtain ⟨hbooks, hclaims, hwritable⟩ := h.claims hat hpres hrefs rfl
    exact .inr ⟨_, rfl, hbooks, hclaims.view, fun hs => hs.claims hclaims, hwritable, rfl⟩
  · rw [if_neg hrefs]
    rcases h.sound.allocateOne_cases with ⟨hnone, -⟩ | ⟨n, a, hok, -⟩
    · rw [hnone]
      exact .inl rfl
    · rw [hok]
      obtain ⟨hbooks, hmoves, hwritable⟩ := h.moves hat hpres hok rfl
      exact .inr ⟨_, rfl, hbooks, hmoves.view, fun hs => hs.moves hmoves, hwritable, rfl⟩

/-! ## Writes -/

omit h in
theorem walk_eq (hat : At T members k.mem slot t i) (hvirt : IsUser virt)
    (hpage : virt.toNat / 4096 = slot.2) : walkPageTables k.mem slot.1 virt =
      if (k.mem t i).isPresent then .ok (k.mem t i, 1) else .error .notMapped := by
  rw [← hat.walk k.mem (agrees_refl k.mem), walkPageTables_page k.mem slot.1 hvirt, hpage]

theorem touch_cases (hp : k.l4 ∈ members) (hvirt : IsUser virt) (strict : Bool) :
    k.touch strict virt = (false, k) ∨ ∃ k', k.touch strict virt = (true, k') ∧
      Touched bg members T pending (k.l4, virt.toNat / 4096) k k' := by
  rcases h.slot_cases (k.l4, virt.toNat / 4096) with hlost | ⟨t, i, hat⟩
  · have hwalk := walkPageTables_page k.mem k.l4 hvirt
    rw [hlost k.mem (agrees_refl k.mem) hp hvirt.page_lt] at hwalk
    exact .inl (by rw [Kernel.touch, hwalk])
  have hwalk := walk_eq hat hvirt rfl
  cases hpres : (k.mem t i).isPresent with
  | false =>
    rw [hpres, if_neg (by decide)] at hwalk
    exact .inl (by rw [Kernel.touch, hwalk])
  | true =>
    rw [hpres, if_pos rfl] at hwalk
    rw [Kernel.touch, hwalk]
    simp only
    by_cases hwritable : (k.mem t i).isWritable = true
    · rw [if_pos hwritable]
      refine .inr ⟨k, rfl, h, rfl, id, ?_, rfl⟩
      rw [writable_sharing, entryAt_self hat (agrees_refl k.mem) hpres, any_some, hwritable]
    · rw [if_neg hwritable, copyOnWriteFault_eq hat rfl rfl]
      exact h.copyOnWriteEntry_cases hat hpres

theorem store (hvirt : IsUser virt)
    (hwritable : (sharing k members).writable (k.l4, virt.toNat / 4096) = true)
    (change : BitVec 64 → BitVec 64) :
    Ledger bg members T pending (k.store virt change) ∧
      ∃ page, (sharing k members).view (k.l4, virt.toNat / 4096) = some page ∧
        (sharing k members).Writes (k.l4, virt.toNat / 4096)
          (update page (wordIndex virt) (change (page (wordIndex virt))))
          (sharing (k.store virt change) members) := by
  rcases h.slot_cases (k.l4, virt.toNat / 4096) with hlost | ⟨t, i, hat⟩
  · rw [writable_sharing, entryAt_of_lost hlost (agrees_refl k.mem)] at hwritable
    cases hwritable
  have hpres : (k.mem t i).isPresent = true := by
    by_contra hnot
    rw [writable_sharing, entryAt_of_absent hat (agrees_refl k.mem) (by simpa using hnot)]
      at hwritable
    cases hwritable
  have hname := name_eq hat hpres
  obtain ⟨-, -, -, -, -, -, hpage⟩ := h.named hname
  have hwalk := walk_eq hat hvirt rfl
  rw [if_pos hpres] at hwalk
  have hstore : k.store virt change = { k with
      mem := k.mem.write (k.mem t i).frame (wordIndex virt)
        (change (k.mem (k.mem t i).frame (wordIndex virt))) } := by
    rw [Kernel.store, hwalk]
    rfl
  have hmem : ∀ u j, (k.store virt change).mem u j =
      if u = (k.mem t i).frame ∧ j = wordIndex virt then
        change (k.mem (k.mem t i).frame (wordIndex virt)) else k.mem u j := fun u j => by
    simp [hstore, write_apply]
  -- the frame is no table
  have htables : ∀ u ∈ T.set, ∀ j, (k.store virt change).mem u j = k.mem u j := fun u hu j => by
    have hne : u ≠ (k.mem t i).frame := fun heq => hpage (heq ▸ hu)
    rw [hmem, if_neg fun heq => hne heq.1]
  have hentry : ∀ other, entryAt (k.store virt change).mem members other =
      entryAt k.mem members other := by
    intro other
    have hagrees : T.Agrees k.mem (k.store virt change).mem := fun u hu _ j _ => htables u hu j
    rcases h.slot_cases other with hlost | ⟨u, j, hat'⟩
    · rw [entryAt_of_lost hlost hagrees, entryAt_of_lost hlost (agrees_refl k.mem)]
    · rw [entryAt, entryAt, hat'.walk _ hagrees, hat'.walk _ (agrees_refl k.mem),
        htables u hat'.table j]
  refine ⟨h.keeps (by rw [hstore]) fun u hu j _ => .inl (htables u hu j),
    k.mem (k.mem t i).frame, ?_, ?_, ?_, ?_, ?_⟩
  · rw [Sharing.view, hname, map_some, page_sharing]
  · funext other
    rw [name_sharing, hentry, name_sharing]
  · funext other
    rw [writable_sharing, hentry, writable_sharing]
  · intro f hf
    cases hname.symm.trans hf
    funext j
    rw [page_sharing, hmem, update_apply]
    simp
  · intro other f _ hne
    have hother : f ≠ (k.mem t i).frame := fun heq => hne (heq ▸ hname)
    funext j
    rw [page_sharing, page_sharing, hmem, if_neg fun heq => hother heq.1]

end

/-! ## Forks -/

section

variable (h : Ledger bg members T pending k)
include h

theorem isTable (hp : p ∈ members) {level : ℕ} (ht : IsTable k.mem p level t) :
    t ∈ T.set ∧ T.level t = level ∧ T.owner t = p := by
  induction ht with
  | root => exact ⟨(h.root p hp).1, (h.root p hp).2, h.owner_root hp⟩
  | @under level table i ht hi hpres hleaf ih =>
    obtain ⟨hmem, hlevel, howner⟩ := ih
    have hin : i ∈ indices (level + 1) := by
      rw [indices]
      split_ifs with hfour
      · exact mem_userHalf.mpr (hi (by omega))
      · exact List.mem_finRange i
    obtain ⟨hmem', hlevel', howner'⟩ := h.next hmem hlevel (ne_zero_of_not_leaf hleaf) hin hpres
    exact ⟨hmem', hlevel', howner'.trans howner⟩

theorem pageTree (hp : p ∈ members) :
    PageTree k p where
  used _ _ ht hfree := h.notMem_of_free hfree (h.isTable hp ht).1
  last _ _ hone ht := (h.isTable hp ht).2.1.symm.trans (h.isTable hp hone).2.1

theorem plainTree (hp : p ∈ members) : PlainTree k.mem p := by
  intro level t i ht hi hpres
  obtain ⟨hmem, hlevel, -⟩ := h.isTable hp ht
  refine h.plain t hmem i ?_ hpres
  rw [hlevel, indices]
  split_ifs with hfour
  · exact mem_userHalf.mpr (hi hfour)
  · exact List.mem_finRange i

end

/-- The page that a page of the child was copied from. -/
def origin (p child : ℕ) (slot : ℕ × ℕ) : ℕ × ℕ := if slot.1 = child then (p, slot.2) else slot

section

variable (h : Ledger bg members T pending k)
include h

theorem agrees_of_later (hp : p ∈ members) (hlater : Later k.mem p (fun _ _ => False) k k') :
    T.Agrees k.mem k'.mem ∧ ∀ t ∈ T.set, ∀ i, Cleared (k.mem t i) (k'.mem t i) := by
  have hused : ∀ {t}, t ∈ T.set → ¬ k.frames.Free t := fun ht hfree => h.notMem_of_free hfree ht
  refine ⟨fun t ht hlevel i _ => hlater.mem (hused ht) (fun hone => ?_) id, fun t ht i => ?_⟩
  · exact hlevel (h.isTable hp hone).2.1
  · by_cases hone : IsTable k.mem p 1 t
    · exact hlater.last hone i
    · exact .inl (hlater.mem (hused ht) hone id)

theorem entryAt_cleared (hagrees : T.Agrees k.mem mem')
    (hcleared : ∀ t ∈ T.set, ∀ i, Cleared (k.mem t i) (mem' t i)) (slot : ℕ × ℕ) :
    (entryAt mem' members slot).map frame = (entryAt k.mem members slot).map frame ∧
      ((entryAt mem' members slot).any isWritable = true →
        (entryAt k.mem members slot).any isWritable = true) := by
  rcases h.slot_cases slot with hlost | ⟨t, i, hat⟩
  · rw [entryAt_of_lost hlost hagrees, entryAt_of_lost hlost (agrees_refl k.mem)]
    exact ⟨rfl, id⟩
  have hentry := hcleared t hat.table i
  cases hpres : (k.mem t i).isPresent with
  | false =>
    rw [entryAt_of_absent hat hagrees (hentry.isPresent.trans hpres),
      entryAt_of_absent hat (agrees_refl k.mem) hpres]
    exact ⟨rfl, id⟩
  | true =>
    rw [entryAt_self hat hagrees (hentry.isPresent.trans hpres),
      entryAt_self hat (agrees_refl k.mem) hpres]
    exact ⟨congrArg some hentry.frame, hentry.isWritable⟩

end

theorem entryAt_mirror {own : ℕ → Prop} {child : ℕ} (hp : p ∈ members)
    (hmirror : ∀ i : Fin 512, i.1 < 256 → MirrorsAt own mem' 4 p child i) (n : ℕ) :
    entryAt mem' (child :: members) (child, n) = (entryAt mem' members (p, n)).map readOnly ∧
      (entryAt mem' members (p, n)).any isWritable = false := by
  by_cases hn : n < 2 ^ 35
  swap
  · rw [entryAt, entryAt, if_neg fun hand => hn hand.2, if_neg fun hand => hn hand.2]
    exact ⟨rfl, rfl⟩
  rw [entryAt, entryAt, if_pos ⟨List.mem_cons_self, hn⟩, if_pos ⟨hp, hn⟩]
  rcases ((hmirror _ (isUser_pageAddr hn).index_lt).walk (by decide)).tables with
    ⟨err, hparent, hchild⟩ | ⟨e, e', level, hparent, hchild, rfl, hsmall⟩
  · simp only [hparent, hchild]
    exact ⟨rfl, rfl⟩
  simp only [hparent, hchild, pageEntry_ok]
  split_ifs with hone
  · exact ⟨rfl, hsmall hone⟩
  · exact ⟨rfl, rfl⟩

theorem fork (h : Ledger bg members T [] k) (hp : p ∈ members) {child : ℕ}
    (hok : k.clonePageTablesCow strict p = (.ok child, k')) :
    (∃ T', Ledger bg (child :: members) T' [] k') ∧ child ∉ members ∧
      (sharing k members).Copies (origin p child) (sharing k' (child :: members)) := by
  let space : AddressSpace := ⟨p, 0, 0, 0, 0, 0, 0, false⟩
  obtain ⟨childSpace, hclone, rfl⟩ : ∃ childSpace, k.cloneCow strict space = (.ok childSpace, k') ∧
      childSpace.l4 = child := by
    have hsame :=
      k.clonePageTablesCow_eq space h.sound.valid (h.pageTree hp) (h.plainTree hp) strict
    rw [hok] at hsame
    rcases heq : k.cloneCow strict space with ⟨_ | childSpace, k₁⟩
    · rw [heq] at hsame
      cases hsame
    · rw [heq] at hsame
      cases hsame
      exact ⟨childSpace, rfl, rfl⟩
  obtain ⟨T', hbooks⟩ : ∃ T', Ledger bg (childSpace.l4 :: members) T' [] k' := by
    rcases h.cloneCow_cases strict (show space.l4 ∈ members from hp) with
      ⟨child, k₁, T', heq, hbooks⟩ | ⟨⟨err, heq⟩, -⟩ | ⟨err, k₁, T', lost, heq, -⟩
    · cases heq.symm.trans hclone
      exact ⟨T', hbooks⟩
    · cases heq.symm.trans hclone
    · cases heq.symm.trans hclone
  have hnew : childSpace.l4 ∉ members := (List.nodup_cons.mp hbooks.nodup_roots).1
  obtain ⟨-, hlater, ⟨own, hmirror⟩, -⟩ := cloneCow_mirrors h.sound.valid (h.pageTree hp) hclone
  obtain ⟨hagrees, hcleared⟩ := h.agrees_of_later hp hlater
  have hkept := h.entryAt_cleared hagrees hcleared
  have hchild := entryAt_mirror hp hmirror
  have hother : ∀ slot : ℕ × ℕ, slot.1 ≠ childSpace.l4 →
      entryAt k'.mem (childSpace.l4 :: members) slot = entryAt k'.mem members slot := by
    intro slot hne
    simp [entryAt, hne]
  refine ⟨⟨T', hbooks⟩, hnew, ?_, ?_, ?_⟩
  · rintro ⟨q, n⟩
    rw [name_sharing, name_sharing, origin]
    split_ifs with hq
    · obtain rfl : q = childSpace.l4 := hq
      rw [(hchild n).1, map_map, ← (hkept (p, n)).1]
      congr 1
      funext e
      exact frame_readOnly
    · rw [hother (q, n) hq, (hkept (q, n)).1]
  · rintro ⟨q, n⟩ hw
    rw [writable_sharing] at hw
    have hq : q ≠ childSpace.l4 := by
      rintro rfl
      rw [(hchild n).1, any_map] at hw
      cases hentry : entryAt k'.mem members (p, n) with
      | none =>
        rw [hentry] at hw
        cases hw
      | some =>
        rw [hentry, any_some, isWritable_readOnly] at hw
        cases hw
    rw [hother (q, n) hq] at hw
    have hqp : q ≠ p := by
      rintro rfl
      rw [(hchild n).2] at hw
      cases hw
    refine ⟨(hkept (q, n)).2 hw, fun other => ⟨fun heq => ?_, ?_⟩⟩
    · rw [origin] at heq
      split_ifs at heq with hcase
      · exact absurd (congrArg Prod.fst heq).symm hqp
      · exact heq
    · rintro rfl
      exact if_neg hq
  · intro slot f hf
    obtain ⟨t, i, hat, -, -, hkid, hpage⟩ := h.named hf
    have hused : ¬ k.frames.Free f := fun hfree => h.name_ne_of_free hfree slot hf
    funext i
    exact hlater.mem hused (fun hone => hpage (h.isTable hp hone).1) id

end Ledger

end IonaOs.Process
