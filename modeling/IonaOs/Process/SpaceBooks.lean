import IonaOs.Lib.Forest
import IonaOs.Process.AddressSpaces

/-!
# The books of all address spaces
-/

namespace IonaOs.Process

open Finset hiding mem_cons mem_filterMap
open Lib Memory List Function

/-! ## Entries -/

namespace Entry

def target (e : Entry) : Option ℕ := if e.isPresent then some e.frame else none

def Keeps (e e' : Entry) : Prop :=
  e' = e ∨ e.isPresent = true ∧ e'.isPresent = true ∧ e'.isHuge = e.isHuge ∧ e'.frame = e.frame

variable {e e' e'' : Entry}

section

variable (h : Keeps e e')
include h

theorem Keeps.trans (h' : Keeps e' e'') : Keeps e e'' := by
  rcases h with rfl | ⟨hp, hp', hhuge, hframe⟩
  · exact h'
  · rcases h' with rfl | ⟨-, hp'', hhuge', hframe'⟩
    · exact .inr ⟨hp, hp', hhuge, hframe⟩
    · exact .inr ⟨hp, hp'', hhuge'.trans hhuge, hframe'.trans hframe⟩

theorem Keeps.isPresent : e'.isPresent = e.isPresent := by
  rcases h with rfl | ⟨hp, hp', -, -⟩
  · rfl
  · rw [hp, hp']

theorem Keeps.isHuge : e'.isHuge = e.isHuge := by
  rcases h with rfl | ⟨-, -, hhuge, -⟩
  · rfl
  · exact hhuge

theorem Keeps.target : e'.target = e.target := by
  rcases h with rfl | ⟨hp, hp', -, hframe⟩
  · rfl
  · simp only [Entry.target, hp, hp', hframe]

theorem Keeps.eq_zero (hzero : e = 0) : e' = 0 := by
  rcases h with rfl | ⟨hp, -⟩
  · exact hzero
  · rw [hzero] at hp
    cases hp

end

theorem frame_readOnly : (readOnly e).frame = e.frame := by
  rw [frame, frame, addr_readOnly]

theorem keeps_readOnly (h : e.isPresent = true) : Keeps e e.readOnly :=
  .inr ⟨h, isPresent_readOnly.trans h, isHuge_readOnly, frame_readOnly⟩

theorem target_of_present (h : e.isPresent = true) : e.target = some e.frame := by
  rw [target, if_pos h]

theorem target_of_absent (h : e.isPresent = false) : e.target = none := by
  rw [target, if_neg (by simp [h])]

@[simp] theorem target_zero : target 0 = none := rfl

theorem frame?_of_plain (strict : Bool) (h : e.isPresent = true) (hplain : e.isHuge = false) :
    e.frame? strict = some e.frame := by
  simp [frame?, h, hplain]

end Entry

theorem PhysMem.keeps_write {mem : PhysMem} {t : ℕ} {i : Fin 512} {e : Entry}
    (h : (mem t i).Keeps e) (u : ℕ) (j : Fin 512) : (mem u j).Keeps (mem.write t i e u j) := by
  rw [write_apply]
  split_ifs with hcase
  · rw [hcase.1, hcase.2]
    exact h
  · exact .inl rfl

theorem nodup_indices (level : ℕ) : (indices level).Nodup := by
  rw [indices]
  split_ifs
  · exact (nodup_finRange 512).filter _
  · exact nodup_finRange 512

theorem indices_of_ne {level : ℕ} (h : level ≠ 4) : indices level = finRange 512 := if_neg h

theorem mem_indices {level : ℕ} (h : level ≠ 4) (i : Fin 512) : i ∈ indices level := by
  rw [indices_of_ne h]
  exact mem_finRange i

theorem IsUser.mem_indices {virt : UInt64} (h : IsUser virt) : index 4 virt ∈ indices 4 := by
  rw [indices, if_pos rfl, Kernel.userHalf, mem_filter]
  exact ⟨mem_finRange _, decide_eq_true h.index_lt⟩

/-! ## Tables -/

structure Tables where
  set : Finset ℕ
  level : ℕ → ℕ
  owner : ℕ → ℕ

open Tables

namespace Tables

variable (T : Tables)

def kids (mem : PhysMem) (t : ℕ) : List ℕ :=
  (indices (T.level t)).filterMap fun i => (mem t i).target

def refers (mem : PhysMem) (f : ℕ) : ℕ := ∑ t ∈ T.set, (T.kids mem t).count f

def add (t level owner : ℕ) : Tables :=
  ⟨insert t T.set, Function.update T.level t level, Function.update T.owner t owner⟩

variable {T} {mem mem' : PhysMem} {t f : ℕ}

theorem mem_kids : f ∈ T.kids mem t ↔
    ∃ i ∈ indices (T.level t), (mem t i).isPresent = true ∧ (mem t i).frame = f := by
  simp only [kids, mem_filterMap]
  refine exists_congr fun i => and_congr_right fun _ => ?_
  rw [Entry.target]
  split_ifs with hp
  · simp [hp]
  · simp [hp]

theorem kids_congr
    (h : ∀ i ∈ indices (T.level t), (mem' t i).target = (mem t i).target) :
    T.kids mem' t = T.kids mem t :=
  filterMap_congr h

theorem one_le_refers (ht : t ∈ T.set) (hf : f ∈ T.kids mem t) : 1 ≤ T.refers mem f :=
  (count_pos_iff.mpr hf).trans_le
    (single_le_sum (f := fun t => (T.kids mem t).count f) (fun _ _ => Nat.zero_le _) ht)

theorem refers_congr (h : ∀ t ∈ T.set, T.kids mem' t = T.kids mem t) :
    T.refers mem' f = T.refers mem f :=
  sum_congr rfl fun t ht => by rw [h t ht]

theorem refers_write (ht : t ∈ T.set) {i : Fin 512} (hi : i ∈ indices (T.level t))
    (mem : PhysMem) (e : Entry) :
    T.refers (mem.write t i e) f + (if (mem t i).target = some f then 1 else 0) =
      T.refers mem f + if e.target = some f then 1 else 0 := by
  have hother : ∀ u ∈ T.set.erase t, (T.kids (mem.write t i e) u).count f =
      (T.kids mem u).count f := by
    intro u hu
    rw [kids_congr fun j _ => by rw [PhysMem.write_apply, if_neg fun heq =>
      (mem_erase.mp hu).1 heq.1]]
  have hhere : (T.kids (mem.write t i e) t).count f + (if (mem t i).target = some f then 1 else 0) =
      (T.kids mem t).count f + if e.target = some f then 1 else 0 := by
    have h := count_filterMap_of_ne (nodup_indices (T.level t)) hi
      (f := fun j => (mem t j).target) (g := fun j => (mem.write t i e t j).target) (fun j hj => by
        rw [PhysMem.write_apply, if_neg fun heq => hj heq.2]) f
    simpa [kids, PhysMem.write_apply] using h
  rw [refers, refers, ← add_sum_erase _ _ ht, ← add_sum_erase _ _ ht, sum_congr rfl hother]
  omega

theorem kids_eq_nil (hzero : ∀ i ∈ indices (T.level t), mem t i = 0) : T.kids mem t = [] := by
  rw [kids, filterMap_eq_nil_iff]
  intro i hi
  rw [hzero i hi, Entry.target_zero]

section Add

variable {level owner : ℕ}

@[simp] theorem level_add_self : (T.add t level owner).level t = level := update_self ..

@[simp] theorem owner_add_self : (T.add t level owner).owner t = owner := update_self ..

theorem level_add {u : ℕ} (hne : u ≠ t) : (T.add t level owner).level u = T.level u :=
  update_of_ne hne ..

theorem owner_add {u : ℕ} (hne : u ≠ t) : (T.add t level owner).owner u = T.owner u :=
  update_of_ne hne ..

theorem kids_add {u : ℕ} (hne : u ≠ t) : (T.add t level owner).kids mem u = T.kids mem u := by
  rw [kids, kids, level_add hne]

theorem refers_add (ht : t ∉ T.set) (hzero : ∀ i ∈ indices level, mem t i = 0) :
    (T.add t level owner).refers mem f = T.refers mem f := by
  have hnil : (T.add t level owner).kids mem t = [] := kids_eq_nil (by simpa using hzero)
  have hold : ∀ u ∈ T.set, (T.add t level owner).kids mem u = T.kids mem u :=
    fun u hu => kids_add fun heq => ht (heq ▸ hu)
  calc (T.add t level owner).refers mem f
      = ((T.add t level owner).kids mem t).count f +
          ∑ u ∈ T.set, ((T.add t level owner).kids mem u).count f := sum_insert ht
    _ = T.refers mem f := by
        rw [hnil, count_nil, Nat.zero_add]
        exact sum_congr rfl fun u hu => by rw [hold u hu]

end Add

end Tables

/-! ## Books -/

/-- `free₀` are the frames that were free, and `others` the references that others hold.  Entries
that are not present may be `swept`: they are zero. -/
structure Background where
  swept : Bool
  free₀ : ℕ → Prop
  others : ℕ → ℕ

/-- The references are accounted for. -/
structure Ledger (bg : Background) (roots : List ℕ) (T : Tables)
    (pending : List ℕ) (k : Kernel) : Prop where
  sound : k.frames.Sound
  returned : k.frames.Returns bg.free₀
  counted : ∀ f, k.frames.refs f =
    bg.others f + pending.count f + roots.count f + T.refers k.mem f
  single : ∀ t ∈ T.set, k.frames.refs t = 1
  fresh : ∀ t ∈ T.set, bg.others t = 0
  small : ∀ t ∈ T.set, t < 524288
  levels : ∀ t ∈ T.set, 1 ≤ T.level t ∧ T.level t ≤ 4
  unused : bg.swept = true → ∀ t ∈ T.set, ∀ i ∈ indices (T.level t),
    (k.mem t i).isPresent = false → k.mem t i = 0
  plain : ∀ t ∈ T.set, ∀ i ∈ indices (T.level t),
    (k.mem t i).isPresent = true → (k.mem t i).isHuge = false
  bottom : ∀ t ∈ T.set, T.level t = 1 → ∀ c ∈ T.kids k.mem t, c ∉ T.set ∧ bg.others c = 0
  down : ∀ t ∈ T.set, T.level t ≠ 1 → ∀ c ∈ T.kids k.mem t,
    c ∈ T.set ∧ T.level c + 1 = T.level t ∧ T.owner c = T.owner t
  root : ∀ r ∈ roots, r ∈ T.set ∧ T.level r = 4
  top : ∀ t ∈ T.set, T.level t = 4 → T.owner t = t
  owned : ∀ t ∈ T.set, T.owner t ∈ T.set ∧ T.level (T.owner t) = 4 ∧
    (T.owner t ∈ roots ∨ T.owner t ∈ pending)

abbrev Books (free₀ : ℕ → Prop) (others : ℕ → ℕ) := Ledger ⟨true, free₀, others⟩

namespace Ledger

variable {bg : Background} {T : Tables}
variable {roots roots' pending pending' : List ℕ}
variable {k k' : Kernel} {t c f : ℕ} {i : Fin 512} {e : Entry}

section

variable (h : Ledger bg roots T pending k)
include h

theorem one_le_refs (ht : t ∈ T.set) (hf : f ∈ T.kids k.mem t) : 1 ≤ k.frames.refs f := by
  rw [h.counted]
  have := one_le_refers ht hf
  omega

theorem one_le_refs_of_pending
    (hf : f ∈ pending) : 1 ≤ k.frames.refs f := by
  rw [h.counted]
  have := count_pos_iff.mpr hf
  omega

theorem notMem_of_free (hf : k.frames.Free f) : f ∉ T.set := by
  intro hmem
  have hzero := h.sound.free f hf
  rw [h.single f hmem] at hzero
  cases hzero

theorem others_of_free (hf : k.frames.Free f) : bg.others f = 0 := by
  have hzero := h.sound.free f hf
  rw [h.counted] at hzero
  omega

theorem perm (hperm : roots.Perm roots') : Ledger bg roots' T pending k :=
  { h with
    counted := fun f => by rw [h.counted, hperm.count_eq]
    root := fun r hr => h.root r (hperm.mem_iff.mpr hr)
    owned := fun t ht => by
      rw [← hperm.mem_iff]
      exact h.owned t ht }

end

theorem promote (h : Ledger bg roots T (t :: pending) k) (ht : t ∈ T.set)
    (hlevel : T.level t = 4) : Ledger bg (t :: roots) T pending k :=
  { h with
    counted := fun f => by
      rw [h.counted, count_cons, count_cons]
      omega
    root := fun r hr => by
      rcases mem_cons.mp hr with rfl | hr
      · exact ⟨ht, hlevel⟩
      · exact h.root r hr
    owned := fun u hu => by
      obtain ⟨hmem, hfour, howner⟩ := h.owned u hu
      refine ⟨hmem, hfour, ?_⟩
      simp only [mem_cons] at howner ⊢
      tauto }

section

variable (h : Ledger bg roots T pending k)
include h

theorem recount (hmem : k'.mem = k.mem) (hsound : k'.frames.Sound)
    (hreturned : k'.frames.Returns bg.free₀) (hrefs : ∀ f, k'.frames.refs f = k.frames.refs f) :
    Ledger bg roots T pending k' :=
  { h with
    sound := hsound
    returned := hreturned
    counted := fun f => by rw [hrefs, hmem, h.counted]
    single := fun t ht => by rw [hrefs, h.single t ht]
    unused := hmem ▸ h.unused
    plain := hmem ▸ h.plain
    bottom := hmem ▸ h.bottom
    down := hmem ▸ h.down }

theorem keeps (hframes : k'.frames = k.frames)
    (hmem : ∀ t ∈ T.set, ∀ i ∈ indices (T.level t), (k.mem t i).Keeps (k'.mem t i)) :
    Ledger bg roots T pending k' := by
  have hkids : ∀ t ∈ T.set, T.kids k'.mem t = T.kids k.mem t := fun t ht =>
    kids_congr fun i hi => (hmem t ht i hi).target
  exact { h with
      sound := hframes ▸ h.sound
      returned := hframes ▸ h.returned
      counted := fun f => by rw [hframes, h.counted, refers_congr hkids]
      single := hframes ▸ h.single
      unused := fun hswept t ht i hi habsent => by
        rw [(hmem t ht i hi).isPresent] at habsent
        exact (hmem t ht i hi).eq_zero (h.unused hswept t ht i hi habsent)
      plain := fun t ht i hi hpres => by
        rw [(hmem t ht i hi).isPresent] at hpres
        rw [(hmem t ht i hi).isHuge, h.plain t ht i hi hpres]
      bottom := fun t ht hone => by
        rw [hkids t ht]
        exact h.bottom t ht hone
      down := fun t ht hone => by
        rw [hkids t ht]
        exact h.down t ht hone }

end

/-! ### Entries that are written -/

structure Fits (bg : Background) (T : Tables) (c : ℕ) (e : Entry) : Prop where
  plain : e.isHuge = false
  unused : e.isPresent = false → e = 0
  bottom : e.isPresent = true → T.level c = 1 → e.frame ∉ T.set ∧ bg.others e.frame = 0
  down : e.isPresent = true → T.level c ≠ 1 →
    e.frame ∈ T.set ∧ T.level e.frame + 1 = T.level c ∧ T.owner e.frame = T.owner c

theorem fits_zero : Fits bg T c 0 where
  plain := rfl
  unused _ := rfl
  bottom h := by cases h
  down h := by cases h

section

variable (h : Ledger bg roots T pending k)
include h

theorem write (hc : c ∈ T.set)
    (hi : i ∈ indices (T.level c)) (he : Fits bg T c e) (hmem : k'.mem = k.mem.write c i e)
    (hsound : k'.frames.Sound) (hreturned : k'.frames.Returns bg.free₀)
    (hrefs : ∀ f, k'.frames.refs f + pending.count f +
        (if (k.mem c i).target = some f then 1 else 0) =
      k.frames.refs f + pending'.count f + if e.target = some f then 1 else 0)
    (hsingle : ∀ t ∈ T.set, k'.frames.refs t = 1)
    (howned : ∀ t ∈ T.set, T.owner t ∈ roots ∨ T.owner t ∈ pending') :
    Ledger bg roots T pending' k' := by
  have hword : ∀ u j, k'.mem u j = if u = c ∧ j = i then e else k.mem u j := fun u j => by
    rw [hmem, PhysMem.write_apply]
  have hkids : ∀ u, ∀ x ∈ T.kids k'.mem u,
      x ∈ T.kids k.mem u ∨ u = c ∧ e.isPresent = true ∧ e.frame = x := by
    intro u x hx
    obtain ⟨j, hj, hp, hframe⟩ := mem_kids.mp hx
    rw [hword] at hp hframe
    split_ifs at hp hframe with hcase
    · exact .inr ⟨hcase.1, hp, hframe⟩
    · exact .inl (mem_kids.mpr ⟨j, hj, hp, hframe⟩)
  exact { h with
      sound := hsound
      returned := hreturned
      counted := fun f => by
        have hcount := h.counted f
        have hmoved := hrefs f
        have hwrite := refers_write (f := f) hc hi k.mem e
        rw [← hmem] at hwrite
        omega
      single := hsingle
      unused := fun hswept u hu j hj habsent => by
        rw [hword] at habsent ⊢
        split_ifs at habsent ⊢
        · exact he.unused habsent
        · exact h.unused hswept u hu j hj habsent
      plain := fun u hu j hj hpres => by
        rw [hword] at hpres ⊢
        split_ifs at hpres ⊢
        · exact he.plain
        · exact h.plain u hu j hj hpres
      bottom := fun u hu hone x hx => by
        rcases hkids u x hx with hx | ⟨rfl, hp, rfl⟩
        · exact h.bottom u hu hone x hx
        · exact he.bottom hp hone
      down := fun u hu hone x hx => by
        rcases hkids u x hx with hx | ⟨rfl, hp, rfl⟩
        · exact h.down u hu hone x hx
        · exact he.down hp hone
      owned := fun t ht => ⟨(h.owned t ht).1, (h.owned t ht).2.1, howned t ht⟩ }

omit h in
theorem link (h : Ledger bg roots T (f :: pending) k) (hc : c ∈ T.set)
    (hi : i ∈ indices (T.level c)) (hzero : k.mem c i = 0) (he : Fits bg T c e)
    (hpres : e.isPresent = true) (hframe : e.frame = f) :
    Ledger bg roots T pending { k with mem := k.mem.write c i e } := by
  -- it is no first table: those are on the fourth level
  have hnot : ∀ t ∈ T.set, T.owner t ≠ f := by
    rintro t ht rfl
    obtain ⟨hmem, hfour, -⟩ := h.owned t ht
    by_cases hone : T.level c = 1
    · exact (he.bottom hpres hone).1 (hframe ▸ hmem)
    have hdown := (he.down hpres hone).2.1
    have hlevels := (h.levels c hc).2
    rw [hframe] at hdown
    omega
  refine h.write hc hi he rfl h.sound h.returned (fun g => ?_) h.single fun t ht => ?_
  · rw [hzero, Entry.target_of_present hpres, hframe, count_cons]
    simp only [Entry.target_zero, Option.some.injEq, beq_iff_eq, reduceCtorEq, if_false]
    omega
  · rcases (h.owned t ht).2.2 with howner | howner
    · exact .inl howner
    · exact .inr ((mem_cons.mp howner).resolve_left (hnot t ht))

theorem clear (hc : c ∈ T.set) (hone : T.level c = 1) (hi : i ∈ indices (T.level c))
    (hpres : (k.mem c i).isPresent = true) : Ledger bg roots T pending
      ({ k with mem := k.mem.write c i 0 }.decRef (k.mem c i).frame) := by
  have hkid : (k.mem c i).frame ∈ T.kids k.mem c := mem_kids.mpr ⟨i, hi, hpres, rfl⟩
  have hpos := h.one_le_refs hc hkid
  refine h.write hc hi fits_zero rfl (h.sound.freeFrame _) (h.returned.freeFrame h.sound _)
    (fun g => ?_) (fun t ht => ?_) fun t ht => (h.owned t ht).2.2
  · rw [Kernel.decRef, h.sound.refs_freeFrame, Entry.target_of_present hpres]
    simp only [Entry.target_zero, Option.some.injEq, reduceCtorEq, if_false]
    by_cases hg : g = (k.mem c i).frame
    · rw [if_pos hg, if_pos hg.symm, hg]
      omega
    · rw [if_neg hg, if_neg (Ne.symm hg)]
  · have hne : t ≠ (k.mem c i).frame := fun heq => (h.bottom c hc hone _ hkid).1 (heq ▸ ht)
    rw [Kernel.decRef, h.sound.refs_freeFrame, if_neg hne]
    exact h.single t ht

/-! ### Frames that are allocated -/

theorem allocateOne {a : FrameAllocator} (hok : k.frames.allocateOne = (.ok f, a)) :
    Ledger bg roots T (f :: pending) { k with frames := a } ∧ f ∉ T.set ∧
      bg.others f = 0 ∧ f < 524288 := by
  rcases h.sound.allocateOne_cases with ⟨hnone, -⟩ | ⟨f', a', hok', hfree, hsound, hrefs, -⟩
  · rw [hnone] at hok
    cases hok
  cases hok'.symm.trans hok
  have hnot := h.notMem_of_free hfree
  refine ⟨?_, hnot, h.others_of_free hfree, lt_of_free hfree⟩
  exact { h with
      sound := hsound
      returned := h.returned.allocateOne h.sound hok
      counted := fun g => by
        have hcount := h.counted g
        rw [hrefs, count_cons]
        by_cases hg : g = f
        · subst hg
          have hzero := h.sound.free g hfree
          simp only [if_true, beq_self_eq_true]
          omega
        · rw [if_neg hg, if_neg (by simpa using Ne.symm hg)]
          omega
      single := fun t ht => by
        have hne : t ≠ f := fun heq => hnot (heq ▸ ht)
        rw [hrefs, if_neg hne]
        exact h.single t ht
      owned := fun t ht => by
        obtain ⟨hmem, hfour, howner⟩ := h.owned t ht
        exact ⟨hmem, hfour, howner.imp_right (mem_cons_of_mem f)⟩ }

end

def Belongs (roots : List ℕ) (T : Tables) (pending : List ℕ) (t level owner : ℕ) : Prop :=
  level = 4 ∧ owner = t ∨
    level ≠ 4 ∧ owner ∈ T.set ∧ T.level owner = 4 ∧ (owner ∈ roots ∨ owner ∈ pending)

theorem add {level owner : ℕ} (h : Ledger bg roots T (t :: pending) k)
    (ht : t ∉ T.set) (hone : k.frames.refs t = 1) (hsmall : t < 524288)
    (hlevel : 1 ≤ level ∧ level ≤ 4) (hzero : ∀ i ∈ indices level, k.mem t i = 0)
    (howner : Belongs roots T pending t level owner) :
    Ledger bg roots (T.add t level owner) (t :: pending) k := by
  have hne : ∀ {u}, u ∈ T.set → u ≠ t := fun hu heq => ht (heq ▸ hu)
  have hcount := h.counted t
  rw [count_cons_self, hone] at hcount
  have hkid : ∀ u ∈ T.set, t ∉ T.kids k.mem u := fun u hu hin => by
    have := one_le_refers hu hin
    omega
  have hnil : (T.add t level owner).kids k.mem t = [] := kids_eq_nil (by simpa using hzero)
  have hcases : ∀ {P : ℕ → Prop}, P t → (∀ u ∈ T.set, P u) →
      ∀ u ∈ (T.add t level owner).set, P u := by
    intro P hnew hold u hu
    rcases mem_insert.mp hu with rfl | hu
    · exact hnew
    · exact hold u hu
  have hold : ∀ {u}, u ∈ T.set → u ∈ (T.add t level owner).set := mem_insert_of_mem
  exact
    { sound := h.sound
      returned := h.returned
      counted := fun f => by rw [h.counted, refers_add ht hzero]
      single := hcases hone h.single
      fresh := hcases (by omega) h.fresh
      small := hcases hsmall h.small
      levels := hcases (by simpa using hlevel) fun u hu => by
        rw [level_add (hne hu)]
        exact h.levels u hu
      unused := fun hswept => hcases (by simpa using fun i hi _ => hzero i hi) fun u hu => by
        rw [level_add (hne hu)]
        exact h.unused hswept u hu
      plain := hcases (by simpa using fun i hi _ => by rw [hzero i hi]; rfl) fun u hu => by
        rw [level_add (hne hu)]
        exact h.plain u hu
      bottom := hcases (by simp [hnil]) fun u hu hlast x hx => by
        rw [level_add (hne hu)] at hlast
        rw [kids_add (hne hu)] at hx
        obtain ⟨hnot, hothers⟩ := h.bottom u hu hlast x hx
        refine ⟨fun hin => ?_, hothers⟩
        rcases mem_insert.mp hin with rfl | hin
        · exact hkid u hu hx
        · exact hnot hin
      down := hcases (by simp [hnil]) fun u hu hlast x hx => by
        rw [level_add (hne hu)] at hlast ⊢
        rw [kids_add (hne hu)] at hx
        obtain ⟨hin, hbelow, hsame⟩ := h.down u hu hlast x hx
        rw [level_add (hne hin), owner_add (hne hin), owner_add (hne hu)]
        exact ⟨hold hin, hbelow, hsame⟩
      root := fun r hr => by
        obtain ⟨hin, hfour⟩ := h.root r hr
        rw [level_add (hne hin)]
        exact ⟨hold hin, hfour⟩
      top := hcases (fun hfour => by
          rw [level_add_self] at hfour
          rw [owner_add_self]
          exact (howner.resolve_right fun hbelow => hbelow.1 hfour).2) fun u hu hfour => by
        rw [level_add (hne hu)] at hfour
        rw [owner_add (hne hu)]
        exact h.top u hu hfour
      owned := hcases (by
          rw [owner_add_self]
          rcases howner with ⟨hfour, rfl⟩ | ⟨-, hin, hfour, hlisted⟩
          · exact ⟨mem_insert_self .., by simpa using hfour, .inr mem_cons_self⟩
          · rw [level_add (hne hin)]
            exact ⟨hold hin, hfour, hlisted.imp_right (mem_cons_of_mem t)⟩) fun u hu => by
        obtain ⟨hin, hfour, hlisted⟩ := h.owned u hu
        rw [owner_add (hne hu), level_add (hne hin)]
        exact ⟨hold hin, hfour, hlisted⟩ }

theorem allocateTable {level owner : ℕ} (h : Ledger bg roots T pending k)
    (hok : k.allocateTable = (.ok t, k')) (hlevel : 1 ≤ level ∧ level ≤ 4)
    (howner : Belongs roots T pending t level owner) :
    Ledger bg roots (T.add t level owner) (t :: pending) k' ∧ k.frames.Free t := by
  rw [Kernel.allocateTable] at hok
  rcases h.sound.allocateOne_cases with ⟨hnone, -⟩ | ⟨t', a, halloc, hfree, -, hrefs, -⟩
  · rw [hnone] at hok
    cases hok
  rw [halloc] at hok
  cases hok
  obtain ⟨hbooks, hnot, -⟩ := h.allocateOne halloc
  refine ⟨?_, hfree⟩
  refine add (hbooks.keeps rfl fun u hu j _ => .inl ?_) hnot ?_ (lt_of_free hfree) hlevel
    (fun j _ => ?_) howner
  · have hne : u ≠ t := fun heq => hnot (heq ▸ hu)
    simp only [update_of_ne hne]
  · simp only [hrefs, if_true]
  · simp only [update_self]

theorem giveBack (h : Ledger bg roots T (f :: pending) k) (hf : f ∉ T.set) :
    Ledger bg roots T pending (k.decRef f) :=
  { h with
    sound := h.sound.freeFrame f
    returned := h.returned.freeFrame h.sound f
    counted := fun g => by
      have hcount := h.counted g
      rw [count_cons] at hcount
      rw [Kernel.decRef, h.sound.refs_freeFrame]
      by_cases hg : g = f
      · subst hg
        simp only [if_true, beq_self_eq_true] at hcount ⊢
        omega
      · rw [if_neg (by simpa using Ne.symm hg)] at hcount
        rw [if_neg hg]
        omega
    single := fun t ht => by
      have hne : t ≠ f := fun heq => hf (heq ▸ ht)
      rw [Kernel.decRef, h.sound.refs_freeFrame, if_neg hne]
      exact h.single t ht
    owned := fun t ht => by
      obtain ⟨hmem, hfour, howner⟩ := h.owned t ht
      refine ⟨hmem, hfour, howner.imp_right fun hin => ?_⟩
      exact (mem_cons.mp hin).resolve_left fun heq => hf (heq ▸ hmem) }

end Ledger

end IonaOs.Process
