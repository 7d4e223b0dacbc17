import IonaOs.Lib.Sharing
import IonaOs.Process.CowFamily

/-!
# The pages of a family
-/

namespace IonaOs.Process

open Lib Memory

/-! ## Entries and addresses -/

namespace Entry

variable {e : Entry} {f : ℕ}

theorem frame_lt (e : Entry) : e.frame < 2 ^ 40 := by
  have hle : (addr e).toNat ≤ addrMask.toNat := by
    rw [addr, BitVec.toNat_and]
    exact Nat.and_le_right
  have hmask : addrMask.toNat < 2 ^ 52 := by decide
  rw [frame]
  omega

def granted (e : Entry) (f : ℕ) : Entry := .setAddr (frameAddr f) (e.flags ||| Flag.writable)

theorem flags_or_writable_and_addrMask : (e.flags ||| Flag.writable) &&& addrMask = 0#64 := by
  have hmask : Flag.writable &&& addrMask = 0#64 := by decide
  rw [BitVec.and_or_distrib_right, flags_and_addrMask, hmask, BitVec.or_zero]

section

variable (hf : f < 2 ^ 40)
include hf

theorem frame_granted : (e.granted f).frame = f := frame_setAddr hf flags_or_writable_and_addrMask

theorem getLsbD_granted {i : ℕ} (hi : i < 12) :
    (e.granted f).getLsbD i = (e.getLsbD i || Flag.writable.getLsbD i) := by
  have hlow : ¬ 12 ≤ i := by omega
  rw [granted, getLsbD_setAddr hf hi, BitVec.getLsbD_or, getLsbD_flags (by omega)]
  simp [hlow]

theorem isPresent_granted : (e.granted f).isPresent = e.isPresent :=
  (getLsbD_granted hf (by decide)).trans (Bool.or_false _)

theorem isHuge_granted : (e.granted f).isHuge = e.isHuge :=
  (getLsbD_granted hf (by decide)).trans (Bool.or_false _)

theorem isWritable_granted : (e.granted f).isWritable = true :=
  (getLsbD_granted hf (by decide)).trans (Bool.or_true _)

end

end Entry

theorem Cleared.frame {e e' : Entry} (h : Cleared e e') : e'.frame = e.frame := by
  rw [Entry.frame, Entry.frame, h.addr]

theorem Cleared.isWritable {e e' : Entry} (h : Cleared e e') (hw : e'.isWritable = true) :
    e.isWritable = true := by
  rcases h with rfl | ⟨-, rfl⟩
  · exact hw
  · rw [Entry.isWritable_readOnly] at hw
    cases hw

section Addresses

variable {virt u v : UInt64} {n : ℕ}

theorem IsUser.isCanonical (h : IsUser virt) : isCanonical virt = true := by
  have hlow : virt.toNat / 2 ^ 47 = 0 := Nat.div_eq_of_lt h
  have hhigh : virt.toNat / 2 ^ 48 = 0 := Nat.div_eq_of_lt (h.trans (by decide))
  simp only [Process.isCanonical, hlow, hhigh]
  rfl

theorem IsUser.index_mem (h : IsUser virt) (level : ℕ) : index level virt ∈ indices level := by
  by_cases hfour : level = 4
  · subst hfour
    exact h.mem_indices
  · exact Process.mem_indices hfour _

def pageAddr (n : ℕ) : UInt64 := UInt64.ofNat (n * 4096)

theorem toNat_pageAddr (hn : n < 2 ^ 35) : (pageAddr n).toNat = n * 4096 := by
  rw [pageAddr, UInt64.toNat_ofNat', Nat.mod_eq_of_lt (by omega)]

theorem isUser_pageAddr (hn : n < 2 ^ 35) : IsUser (pageAddr n) := by
  rw [IsUser, toNat_pageAddr hn]
  omega

theorem IsUser.page_lt (h : IsUser virt) : virt.toNat / 4096 < 2 ^ 35 := by
  rw [IsUser] at h
  omega

theorem index_congr (h : u.toNat / 4096 = v.toNat / 4096) (level : ℕ) :
    index level u = index level v := by
  have hsplit : ∀ x : ℕ, x / 2 ^ (12 + 9 * (level - 1)) = x / 4096 / 2 ^ (9 * (level - 1)) :=
    fun x => by rw [pow_add, ← Nat.div_div_eq_div_mul]; rfl
  rw [index, index, hsplit, hsplit, h]

theorem page_eq_of_index (hu : IsUser u) (hv : IsUser v)
    (h : ∀ level, 1 ≤ level → level ≤ 4 → index level u = index level v) :
    u.toNat / 4096 = v.toNat / 4096 := by
  have hval : ∀ level, 1 ≤ level → level ≤ 4 →
      u.toNat / 2 ^ (12 + 9 * (level - 1)) % 512 = v.toNat / 2 ^ (12 + 9 * (level - 1)) % 512 :=
    fun level h1 h4 => congrArg Fin.val (h level h1 h4)
  have h1 := hval 1 (by decide) (by decide)
  have h2 := hval 2 (by decide) (by decide)
  have h3 := hval 3 (by decide) (by decide)
  have h4 := hval 4 (by decide) (by decide)
  rw [IsUser] at hu hv
  norm_num at h1 h2 h3 h4
  omega

theorem walkPageTables_page (mem : PhysMem) (q : ℕ) (h : IsUser virt) :
    walkPageTables mem q virt = walkPageTables mem q (pageAddr (virt.toNat / 4096)) := by
  have hpage : virt.toNat / 4096 = (pageAddr (virt.toNat / 4096)).toNat / 4096 := by
    rw [toNat_pageAddr h.page_lt]
    omega
  simp only [walkPageTables, h.isCanonical, (isUser_pageAddr h.page_lt).isCanonical,
    ← index_congr hpage]

end Addresses

/-! ## Walks -/

/-- From a table of the level `n + 1` an address leads to the table `t` of the first level. -/
def Leads (mem : PhysMem) (virt : UInt64) (t : ℕ) : ℕ → ℕ → Prop
  | 0, u => u = t
  | n + 1, u => (mem u (index (n + 2) virt)).isPresent = true ∧
      Leads mem virt t n (mem u (index (n + 2) virt)).frame

def Tables.Agrees (T : Tables) (mem mem' : PhysMem) : Prop :=
  ∀ t ∈ T.set, T.level t ≠ 1 → ∀ i ∈ indices (T.level t), mem' t i = mem t i

/-- A page leads to the entry `i` of the table `t` of the first level. -/
structure At (T : Tables) (members : List ℕ) (mem : PhysMem) (slot : ℕ × ℕ) (t : ℕ)
    (i : Fin 512) : Prop where
  member : slot.1 ∈ members
  page : slot.2 < 2 ^ 35
  table : t ∈ T.set
  level : T.level t = 1
  owner : T.owner t = slot.1
  leads : Leads mem (pageAddr slot.2) t 3 slot.1
  index : i = index 1 (pageAddr slot.2)
  walk : ∀ mem', T.Agrees mem mem' → walkPageTables mem' slot.1 (pageAddr slot.2) =
    if (mem' t i).isPresent then .ok (mem' t i, 1) else .error .notMapped

def Lost (T : Tables) (members : List ℕ) (mem : PhysMem) (slot : ℕ × ℕ) : Prop :=
  ∀ mem', T.Agrees mem mem' → slot.1 ∈ members → slot.2 < 2 ^ 35 →
    walkPageTables mem' slot.1 (pageAddr slot.2) = .error .notMapped

theorem pageEntry_ok (e : Entry) (level : ℕ) :
    pageEntry (.ok (e, level)) = if level = 1 then some e else none := by
  split_ifs with hone
  · subst hone
    rfl
  · rw [pageEntry]
    rintro _ ⟨⟩
    exact hone rfl

def entryAt (mem : PhysMem) (members : List ℕ) (slot : ℕ × ℕ) : Option Entry :=
  if slot.1 ∈ members ∧ slot.2 < 2 ^ 35 then
    pageEntry (walkPageTables mem slot.1 (pageAddr slot.2))
  else none

def sharing (k : Kernel) (members : List ℕ) : Sharing (ℕ × ℕ) ℕ PageTable where
  name slot := (entryAt k.mem members slot).map Entry.frame
  writable slot := (entryAt k.mem members slot).any Entry.isWritable
  page := k.mem

section Sharing

variable (k : Kernel) (members : List ℕ) (slot : ℕ × ℕ)

@[simp] theorem name_sharing :
    (sharing k members).name slot = (entryAt k.mem members slot).map Entry.frame := rfl

@[simp] theorem writable_sharing :
    (sharing k members).writable slot = (entryAt k.mem members slot).any Entry.isWritable := rfl

@[simp] theorem page_sharing : (sharing k members).page = k.mem := rfl

end Sharing

theorem load_eq {k : Kernel} {members : List ℕ} {q : ℕ} {virt : UInt64} (hq : q ∈ members)
    (hvirt : IsUser virt) : k.load q virt =
      ((sharing k members).view (q, virt.toNat / 4096)).map (· (wordIndex virt)) := by
  have hslot : (q, virt.toNat / 4096).1 ∈ members ∧ (q, virt.toNat / 4096).2 < 2 ^ 35 :=
    ⟨hq, hvirt.page_lt⟩
  rw [Kernel.load, Sharing.view, name_sharing, page_sharing, entryAt, if_pos hslot,
    walkPageTables_page k.mem q hvirt, Option.map_map, Option.map_map]
  rfl

namespace Ledger

variable {bg : Background} {strict : Bool} {members pending : List ℕ}
variable {T : Tables} {k k' : Kernel} {t t' f n p q : ℕ} {i i' : Fin 512} {virt : UInt64}
variable {slot slot' : ℕ × ℕ} {mem' : PhysMem}

section

variable (h : Ledger bg members T pending k)
include h

theorem walkFrom_cases (hvirt : IsUser virt)
    (n : ℕ) {u : ℕ} (hu : u ∈ T.set) (hlevel : T.level u = n + 1) :
    (∀ mem', T.Agrees k.mem mem' → walkFrom mem' virt (n + 1) u = .error .notMapped) ∨
      ∃ t ∈ T.set, T.level t = 1 ∧ T.owner t = T.owner u ∧ Leads k.mem virt t n u ∧
        ∀ mem', T.Agrees k.mem mem' → walkFrom mem' virt (n + 1) u = walkFrom mem' virt 1 t := by
  induction n generalizing u with
  | zero => exact .inr ⟨u, hu, hlevel, rfl, rfl, fun _ _ => rfl⟩
  | succ n ih =>
    have hin : index (n + 2) virt ∈ indices (T.level u) := hlevel ▸ hvirt.index_mem _
    have hsame : ∀ mem', T.Agrees k.mem mem' →
        mem' u (index (n + 2) virt) = k.mem u (index (n + 2) virt) :=
      fun mem' hagrees => hagrees u hu (by omega) _ hin
    cases hpres : (k.mem u (index (n + 2) virt)).isPresent with
    | false =>
      refine .inl fun mem' hagrees => walkFrom_of_absent ?_
      rw [hsame mem' hagrees, hpres]
    | true =>
      have hleaf := isLeaf_of_plain (by omega : n + 1 ≠ 0) (h.plain u hu _ hin hpres)
      have htable : ∀ mem', T.Agrees k.mem mem' → walkFrom mem' virt (n + 2) u =
          walkFrom mem' virt (n + 1) (k.mem u (index (n + 2) virt)).frame := by
        intro mem' hagrees
        rw [← hsame mem' hagrees] at hpres hleaf ⊢
        exact walkFrom_of_table hpres hleaf
      obtain ⟨hmem, hbelow, howner⟩ := h.next hu hlevel (by omega) (hvirt.index_mem _) hpres
      rcases ih hmem hbelow with hbroken | ⟨t, ht, hone, howner', hleads, hwalk⟩
      · exact .inl fun mem' hagrees => (htable mem' hagrees).trans (hbroken mem' hagrees)
      · exact .inr ⟨t, ht, hone, howner'.trans howner, ⟨hpres, hleads⟩,
          fun mem' hagrees => (htable mem' hagrees).trans (hwalk mem' hagrees)⟩

theorem slot_cases (slot : ℕ × ℕ) :
    Lost T members k.mem slot ∨ ∃ t i, At T members k.mem slot t i := by
  by_cases hslot : slot.1 ∈ members ∧ slot.2 < 2 ^ 35
  swap
  · exact .inl fun mem' _ hmember hpage => absurd ⟨hmember, hpage⟩ hslot
  have huser := isUser_pageAddr hslot.2
  obtain ⟨hmem, hfour⟩ := h.root _ hslot.1
  have htop : ∀ mem', walkPageTables mem' slot.1 (pageAddr slot.2) =
      walkFrom mem' (pageAddr slot.2) 4 slot.1 := fun mem' => by
    rw [walkPageTables_eq, huser.isCanonical, if_pos rfl]
  rcases h.walkFrom_cases huser 3 hmem hfour with hbroken | ⟨t, ht, hone, howner, hleads, hwalk⟩
  · exact .inl fun mem' hagrees _ _ => (htop mem').trans (hbroken mem' hagrees)
  refine .inr ⟨t, _, hslot.1, hslot.2, ht, hone, howner.trans (h.top _ hmem hfour), hleads, rfl,
    fun mem' hagrees => ?_⟩
  rw [htop, hwalk mem' hagrees]
  cases hpres : (mem' t (index 1 (pageAddr slot.2))).isPresent with
  | false => exact walkFrom_of_absent hpres
  | true => exact walkFrom_of_leaf hpres rfl

theorem entry_unique (hf : k.frames.refs f ≤ 1)
    (ht : t ∈ T.set) (hi : i ∈ indices (T.level t)) (he : (k.mem t i).target = some f)
    (ht' : t' ∈ T.set) (hi' : i' ∈ indices (T.level t')) (he' : (k.mem t' i').target = some f) :
    t' = t ∧ i' = i := by
  by_contra hne
  -- without the one entry, the other still has the frame
  have hwrite := Tables.refers_write (f := f) ht hi k.mem 0
  rw [if_pos he, Entry.target_zero, if_neg (by simp)] at hwrite
  have hkid : f ∈ T.kids (k.mem.write t i 0) t' := by
    refine List.mem_filterMap.mpr ⟨i', hi', ?_⟩
    rw [PhysMem.write_apply, if_neg hne, he']
  have hpos := Tables.one_le_refers ht' hkid
  have hcount := h.counted f
  omega

theorem leads_unique {u v : UInt64}
    (hu : IsUser u) (hv : IsUser v) {a b : ℕ} (ha : a ∈ T.set) (hla : T.level a = n + 1)
    (hb : b ∈ T.set) (hlb : T.level b = n + 1) (hleads : Leads k.mem u t n a)
    (hleads' : Leads k.mem v t n b) :
    b = a ∧ ∀ level, 2 ≤ level → level ≤ n + 1 → index level v = index level u := by
  induction n generalizing a b with
  | zero => exact ⟨hleads'.trans hleads.symm, fun level h2 h1 => by omega⟩
  | succ n ih =>
    obtain ⟨hp, hleads⟩ := hleads
    obtain ⟨hp', hleads'⟩ := hleads'
    obtain ⟨hc, hlc, -⟩ := h.next ha hla (by omega) (hu.index_mem _) hp
    obtain ⟨hc', hlc', -⟩ := h.next hb hlb (by omega) (hv.index_mem _) hp'
    obtain ⟨heq, hindex⟩ := ih hc hlc hc' hlc' hleads hleads'
    have hin : index (n + 2) u ∈ indices (T.level a) := hla ▸ hu.index_mem _
    have hin' : index (n + 2) v ∈ indices (T.level b) := hlb ▸ hv.index_mem _
    obtain ⟨hsame, hlast⟩ := h.entry_unique (h.single _ hc).le ha hin
      (Entry.target_of_present hp) hb hin' (by rw [Entry.target_of_present hp', heq])
    refine ⟨hsame, fun level h2 hle => ?_⟩
    rcases Nat.lt_or_ge level (n + 2) with hlt | hge
    · exact hindex level h2 (by omega)
    · obtain rfl : level = n + 2 := by omega
      exact hlast

theorem slot_unique
    (hat : At T members k.mem slot t i) (hat' : At T members k.mem slot' t i) : slot' = slot := by
  have huser := isUser_pageAddr hat.page
  have huser' := isUser_pageAddr hat'.page
  have howner : slot'.1 = slot.1 := hat'.owner.symm.trans hat.owner
  obtain ⟨hmem, hfour, -⟩ := h.owned t hat.table
  rw [hat.owner] at hmem hfour
  obtain ⟨-, hindex⟩ := h.leads_unique huser huser' hmem hfour (howner ▸ hmem) (howner ▸ hfour)
    hat.leads hat'.leads
  have hpage := page_eq_of_index huser' huser fun level h1 h4 => by
    rcases Nat.eq_or_lt_of_le h1 with rfl | h2
    · exact hat'.index.symm.trans hat.index
    · exact hindex level h2 h4
  rw [toNat_pageAddr hat.page, toNat_pageAddr hat'.page] at hpage
  exact Prod.ext howner (by omega)

/-! ## Slots -/

end

theorem agrees_refl (mem : PhysMem) : T.Agrees mem mem := fun _ _ _ _ _ => rfl

theorem entryAt_of_lost (hlost : Lost T members k.mem slot) (hagrees : T.Agrees k.mem mem') :
    entryAt mem' members slot = none := by
  rw [entryAt]
  split_ifs with hslot
  · rw [hlost mem' hagrees hslot.1 hslot.2]
    rfl
  · rfl

theorem entryAt_self (hat : At T members k.mem slot t i) (hagrees : T.Agrees k.mem mem')
    (hpres : (mem' t i).isPresent = true) : entryAt mem' members slot = some (mem' t i) := by
  rw [entryAt, if_pos ⟨hat.member, hat.page⟩, hat.walk mem' hagrees, if_pos hpres]
  rfl

theorem entryAt_of_absent (hat : At T members k.mem slot t i) (hagrees : T.Agrees k.mem mem')
    (hpres : (mem' t i).isPresent = false) : entryAt mem' members slot = none := by
  rw [entryAt, if_pos ⟨hat.member, hat.page⟩, hat.walk mem' hagrees, hpres]
  rfl

section

variable (h : Ledger bg members T pending k) (hat : At T members k.mem slot t i)
include h hat

theorem entryAt_of_ne (hagrees : T.Agrees k.mem mem')
    (hcell : ∀ u ∈ T.set, ∀ j, ¬ (u = t ∧ j = i) → mem' u j = k.mem u j) (hne : slot' ≠ slot) :
    entryAt mem' members slot' = entryAt k.mem members slot' := by
  rcases h.slot_cases slot' with hlost | ⟨u, j, hat'⟩
  · rw [entryAt_of_lost hlost hagrees, entryAt_of_lost hlost (agrees_refl k.mem)]
  have hsame : mem' u j = k.mem u j := by
    refine hcell u hat'.table j ?_
    rintro ⟨rfl, rfl⟩
    exact hne (h.slot_unique hat hat')
  rw [entryAt, entryAt, hat'.walk mem' hagrees, hat'.walk k.mem (agrees_refl k.mem), hsame]

omit hat in
theorem named (hname : (sharing k members).name slot = some f) :
    ∃ t i, At T members k.mem slot t i ∧ (k.mem t i).isPresent = true ∧ (k.mem t i).frame = f ∧
      f ∈ T.kids k.mem t ∧ f ∉ T.set := by
  rcases h.slot_cases slot with hlost | ⟨t, i, hat⟩
  · rw [name_sharing, entryAt_of_lost hlost (agrees_refl k.mem)] at hname
    cases hname
  cases hpres : (k.mem t i).isPresent with
  | false =>
    rw [name_sharing, entryAt_of_absent hat (agrees_refl k.mem) hpres] at hname
    cases hname
  | true =>
    rw [name_sharing, entryAt_self hat (agrees_refl k.mem) hpres] at hname
    cases hname
    have hkid : (k.mem t i).frame ∈ T.kids k.mem t :=
      Tables.mem_kids.mpr ⟨i, mem_indices (by rw [hat.level]; decide) i, hpres, rfl⟩
    exact ⟨t, i, hat, hpres, rfl, hkid, (h.bottom t hat.table hat.level _ hkid).1⟩

omit h in
theorem name_eq (hpres : (k.mem t i).isPresent = true) :
    (sharing k members).name slot = some (k.mem t i).frame := by
  rw [name_sharing, entryAt_self hat (agrees_refl k.mem) hpres, Option.map_some]

theorem alone_of_refs (hpres : (k.mem t i).isPresent = true)
    (hrefs : k.frames.refs (k.mem t i).frame ≤ 1) : (sharing k members).Alone slot := by
  intro f other hf hother
  rw [name_eq hat hpres] at hf
  cases hf
  obtain ⟨u, j, hat', hpres', hframe, -⟩ := h.named hother
  have hin : ∀ {v : ℕ}, T.level v = 1 → ∀ j, j ∈ indices (T.level v) :=
    fun hone j => mem_indices (by rw [hone]; decide) j
  obtain ⟨rfl, rfl⟩ := h.entry_unique hrefs hat.table (hin hat.level i)
    (Entry.target_of_present hpres) hat'.table (hin hat'.level j)
    (by rw [Entry.target_of_present hpres', hframe])
  exact h.slot_unique hat hat'

end

end Ledger

end IonaOs.Process
