import IonaOs.Process.CowSteps
import IonaOs.Process.Teardown

/-!
# Members of a family do not see each other's writes
-/

namespace IonaOs.Process

open Lib Memory Function List

/-! ## Counts -/

namespace Ledger

variable {bg : Background} {members pending : List ℕ}
variable {T : Tables} {k : Kernel} {r t n f : ℕ}

section

variable (h : Ledger bg members T pending k)
include h

theorem mem_rows (hr : r ∈ members) (hn : n < 4) (ht : t ∈ rows k.mem r n) :
    t ∈ T.set ∧ T.level t = 4 - n := by
  induction n generalizing t with
  | zero =>
    rw [mem_singleton.mp ht]
    exact h.root r hr
  | succ n ih =>
    obtain ⟨u, hu, hmem⟩ := mem_flatMap.mp ht
    obtain ⟨hset, hlevel⟩ := ih (by omega) hu
    have hkid : t ∈ T.kids k.mem u := by rwa [Tables.kids, hlevel]
    obtain ⟨hset', hbelow, -⟩ := h.down u hset (by omega) t hkid
    exact ⟨hset', by omega⟩

omit h in
theorem count_spaceFrames_eq (h : Ledger bg members T [] k) (hr : r ∈ members)
    (f : ℕ) : (spaceFrames k.mem r).count f =
      (tables k.mem r).count f + (leaves k.mem r).count f := by
  obtain ⟨hmem, hfour⟩ := h.root r hr
  have hbelow : ∀ n < 4, ∀ m, ((rows k.mem r n).flatMap (below (T.kids k.mem) (m + 1))).count f =
      (rows k.mem r (n + 1)).count f +
        ((rows k.mem r (n + 1)).flatMap (below (T.kids k.mem) m)).count f := fun n hn m => by
    have hkids : rows k.mem r (n + 1) = (rows k.mem r n).flatMap (T.kids k.mem) :=
      flatMap_congr fun t ht => by rw [Tables.kids, (h.mem_rows hr hn ht).2, entriesOf]
    rw [count_below_succ, hkids]
  have hend : (rows k.mem r 4).flatMap (below (T.kids k.mem) 0) = [] :=
    flatMap_eq_nil_iff.mpr fun _ _ => rfl
  have hall : (below (T.kids k.mem) 4 r).count f = (rows k.mem r 1).count f +
      ((rows k.mem r 2).count f + ((rows k.mem r 3).count f + (rows k.mem r 4).count f)) := by
    have hroot : (rows k.mem r 0).flatMap (below (T.kids k.mem) 4) = below (T.kids k.mem) 4 r :=
      flatMap_singleton ..
    rw [← hroot, hbelow 0 (by decide), hbelow 1 (by decide), hbelow 2 (by decide),
      hbelow 3 (by decide), hend, count_nil]
    simp only [Nat.reduceAdd, Nat.add_zero]
  have hrow : rows k.mem r 0 = [r] := rfl
  rw [spaceFrames, count_append, h.framesBelow_eq hmem hfour, hall, tables, leaves]
  simp only [range_succ, range_zero, nil_append, flatMap_append,
    flatMap_singleton, count_append, hrow]
  omega

omit h in
theorem refs_eq_leaves (h : Ledger bg members T [] k) (hothers : bg.others f = 0)
    (hf : f ∉ members.flatMap (tables k.mem)) :
    k.frames.refs f = (members.flatMap (leaves k.mem)).count f := by
  rw [h.counted_frames, hothers, Nat.zero_add, count_flatMap, count_flatMap]
  refine congrArg sum (map_congr_left fun r hr => ?_)
  have hnot : f ∉ tables k.mem r := fun hin => hf (mem_flatMap.mpr ⟨r, hr, hin⟩)
  simp only [comp_apply, h.count_spaceFrames_eq hr, count_eq_zero.mpr hnot, Nat.zero_add]

theorem run (p : ℕ) : Ledger bg members T pending { k with l4 := p } :=
  h.recount rfl h.sound h.returned fun _ => rfl

end

end Ledger

/-! ## Runs -/

namespace Family

structure Private (s : Family) : Prop where
  exclusive : (sharing s.kernel s.members).Exclusive
  reads : ∀ p ∈ s.members, ∃ content, s.due p = some content ∧
    ∀ virt, IsUser virt → s.kernel.load p virt = content virt

def Lone (root : ℕ) (s : Family) : Prop := s.members = [root] ∧ s.due root = none

structure Apart (others : ℕ → ℕ) (root : ℕ) (s : Family) : Prop where
  books : ∃ T, Ledger ⟨false, fun _ => False, others⟩ s.members T [] s.kernel
  seen : s.Lone root ∨ s.Private

variable {others : ℕ → ℕ} {root p child : ℕ} {s : Family} {k : Kernel} {strict : Bool}

theorem load_copies {k' : Kernel} (hp : p ∈ s.members) (hnew : child ∉ s.members)
    (hcopies : (sharing s.kernel s.members).Copies (Ledger.origin p child)
      (sharing k' (child :: s.members))) (virt : UInt64) (hvirt : IsUser virt) :
    k'.load child virt = s.kernel.load p virt ∧
      ∀ q ∈ s.members, k'.load q virt = s.kernel.load q virt := by
  refine ⟨?_, fun q hq => ?_⟩
  · rw [load_eq mem_cons_self hvirt, hcopies.view, Ledger.origin, if_pos rfl, load_eq hp hvirt]
  · have hne : q ≠ child := fun heq => hnew (heq ▸ hq)
    rw [load_eq (mem_cons_of_mem child hq) hvirt, hcopies.view, Ledger.origin, if_neg hne,
      load_eq hq hvirt]

theorem exclusive_of_lone {k' : Kernel} (hnew : child ≠ p)
    (hcopies : (sharing s.kernel [p]).Copies (Ledger.origin p child) (sharing k' [child, p])) :
    (sharing k' [child, p]).Exclusive := by
  rintro ⟨q, n⟩ hw
  obtain ⟨-, horigin⟩ := hcopies.writable _ hw
  have hmember : q = child ∨ q = p := by
    by_contra hnot
    rw [writable_sharing, entryAt, if_neg fun hand => hnot (by simpa using hand.1)] at hw
    cases hw
  rcases hmember with rfl | rfl
  · have hself := (horigin (q, n)).mpr rfl
    rw [Ledger.origin, if_pos rfl] at hself
    exact absurd (congrArg Prod.fst hself).symm hnew
  · have hchild := (horigin (child, n)).mp (if_pos rfl)
    exact absurd (congrArg Prod.fst hchild) hnew

theorem Apart.join (h : s.Apart others root) (hp : p ∈ s.members)
    (hok : s.kernel.clonePageTablesCow strict p = (.ok child, k)) :
    (s.join p child k).Apart others root := by
  obtain ⟨T, hbooks⟩ := h.books
  obtain ⟨hbooks', hnew, hcopies⟩ := hbooks.fork hp hok
  have hload := load_copies hp hnew hcopies
  have hdue : (s.join p child k).due child = some (s.kernel.load p) := update_self ..
  have hparent : (s.join p child k).due p = some ((s.due p).getD (s.kernel.load p)) := by
    have hne : p ≠ child := fun heq => hnew (heq ▸ hp)
    exact (update_of_ne hne ..).trans (update_self ..)
  have hother : ∀ q ∈ s.members, q ≠ p → (s.join p child k).due q = s.due q := fun q hq hqp => by
    have hne : q ≠ child := fun heq => hnew (heq ▸ hq)
    exact (update_of_ne hne ..).trans (update_of_ne hqp ..)
  refine ⟨hbooks', .inr ⟨?_, fun q hmember => ?_⟩⟩
  · rcases h.seen with ⟨hmembers, -⟩ | hprivate
    · obtain rfl : p = root := by simpa [hmembers] using hp
      have hlone := hcopies
      rw [hmembers] at hlone
      have hexclusive := exclusive_of_lone (fun heq : child = p => hnew (heq ▸ hp)) hlone
      rwa [← hmembers] at hexclusive
    · exact hprivate.exclusive.copies hcopies
  · rcases mem_cons.mp hmember with rfl | hq
    · exact ⟨_, hdue, fun virt hvirt => (hload virt hvirt).1⟩
    rcases h.seen with ⟨hmembers, hnone⟩ | hprivate
    · obtain rfl : p = root := by simpa [hmembers] using hp
      obtain rfl : q = p := by simpa [hmembers] using hq
      refine ⟨_, hparent, fun virt hvirt => ?_⟩
      rw [hnone, Option.getD_none]
      exact (hload virt hvirt).2 q hq
    · obtain ⟨content, hcontent, hreads⟩ := hprivate.reads q hq
      refine ⟨content, ?_, fun virt hvirt => ?_⟩
      · by_cases hqp : q = p
        · subst hqp
          rw [hparent, hcontent, Option.getD_some]
        · rw [hother q hq hqp, hcontent]
      · exact ((hload virt hvirt).2 q hq).trans (hreads virt hvirt)

theorem wordIndex_eq_iff {u v : UInt64} (h : u.toNat / 4096 = v.toNat / 4096) :
    wordIndex u = wordIndex v ↔ u.toNat / 8 = v.toNat / 8 := by
  have hval : wordIndex u = wordIndex v ↔ u.toNat / 8 % 512 = v.toNat / 8 % 512 := by
    rw [Fin.ext_iff]
    rfl
  rw [hval]
  omega

theorem load_writes {k k' : Kernel} {members : List ℕ} {virt v : UInt64} {page : PageTable}
    {change : BitVec 64 → BitVec 64} {q : ℕ}
    (hwrites : (sharing k members).Writes (p, virt.toNat / 4096)
      (update page (wordIndex virt) (change (page (wordIndex virt)))) (sharing k' members))
    (hview : (sharing k members).view (p, virt.toNat / 4096) = some page)
    (halone : (sharing k members).Alone (p, virt.toNat / 4096)) (hq : q ∈ members)
    (hv : IsUser v) : k'.load q v =
      if q = p then Contents.overwrite (k.load q) virt change v else k.load q v := by
  have hmapped : (sharing k members).name (p, virt.toNat / 4096) ≠ none := by
    intro hnone
    rw [Sharing.view, hnone] at hview
    cases hview
  rw [load_eq hq hv]
  by_cases hslot : (q, v.toNat / 4096) = (p, virt.toNat / 4096)
  · obtain ⟨rfl, hpage⟩ := Prod.mk.inj hslot
    rw [if_pos rfl, hslot, hwrites.view_self hmapped, Contents.overwrite, load_eq hq hv, hslot,
      hview]
    simp only [Option.map_some, update_apply, wordIndex_eq_iff hpage]
    split_ifs with hword
    · rw [(wordIndex_eq_iff hpage).mpr hword]
    · rfl
  · rw [hwrites.view_of_ne halone hslot, ← load_eq hq hv]
    split_ifs with hqp
    · subst hqp
      have hpage : v.toNat / 4096 ≠ virt.toNat / 4096 := fun heq => hslot (by rw [heq])
      rw [Contents.overwrite, if_neg (by omega)]
    · rfl

theorem Apart.write (h : s.Apart others root) (hp : p ∈ s.members) (virt : UserAddr)
    (change : BitVec 64 → BitVec 64) :
    (s.step strict (.write p virt change)).Apart others root := by
  obtain ⟨T, hbooks⟩ := h.books
  have hrun := hbooks.run p
  rw [step, if_pos hp]
  rcases hrun.touch_cases hp virt.2 strict with hfails | ⟨k, htouch, htouched⟩
  · rw [hfails]
    exact ⟨⟨T, hrun⟩, h.seen.imp_right fun hprivate => ⟨hprivate.exclusive, hprivate.reads⟩⟩
  rw [htouch]
  have hl4 : k.l4 = p := htouched.l4
  have hwritable := htouched.writable
  rw [← htouched.l4] at hwritable
  obtain ⟨hstored, page, hview, hwrites⟩ := htouched.books.store virt.2 hwritable change
  rw [hl4] at hview hwrites hwritable
  refine ⟨⟨T, hstored⟩, h.seen.imp (fun hlone => ?_) fun hprivate => ?_⟩
  · obtain ⟨hmembers, hnone⟩ := hlone
    obtain rfl : p = root := by simpa [hmembers] using hp
    refine ⟨hmembers, ?_⟩
    change update s.due p ((s.due p).map _) p = none
    rw [update_self, hnone, Option.map_none]
  have hexclusive := htouched.exclusive hprivate.exclusive
  refine ⟨hexclusive.writes hwrites, fun q hq => ?_⟩
  obtain ⟨content, hcontent, hreads⟩ := hprivate.reads q hq
  have hbefore : ∀ v, IsUser v → k.load q v = content v := fun v hv => by
    rw [load_eq hq hv, htouched.view, ← hreads v hv, load_eq hq hv]
    rfl
  have hafter := fun {v} => load_writes (v := v) hwrites hview (hexclusive _ hwritable) hq
  by_cases hqp : q = p
  · subst hqp
    refine ⟨content.overwrite virt change, ?_, fun v hv => ?_⟩
    · change update s.due q ((s.due q).map _) q = _
      rw [update_self, hcontent, Option.map_some]
    · rw [hafter hv, if_pos rfl, Contents.overwrite, Contents.overwrite, hbefore v hv]
  · refine ⟨content, (update_of_ne hqp ..).trans hcontent, fun v hv => ?_⟩
    rw [hafter hv, if_neg hqp, hbefore v hv]

theorem Apart.step (h : s.Apart others root) (e : FamilyEvent) (hok : s.Succeeds strict e) :
    (s.step strict e).Apart others root := by
  cases e with
  | fork p =>
    by_cases hp : p ∈ s.members
    · have hchild := hok hp
      rw [Family.step, if_pos hp]
      rcases heq : s.kernel.clonePageTablesCow strict p with ⟨_ | child, k⟩
      · rw [heq] at hchild
        cases hchild
      · exact h.join hp heq
    · rw [Family.step, if_neg hp]
      exact h
  | write p virt change =>
    by_cases hp : p ∈ s.members
    · exact h.write hp virt change
    · rw [Family.step, if_neg hp]
      exact h

/-- **Copy on write keeps the members of a family apart.**  After any number of forks and writes,
each member reads what its parent read at the fork, with its own writes over it; the first process
does so from its first fork on.  The count of each frame is the number of pages that have it, if it
was so at the start and the frame is no table. -/
theorem isolated (strict : Bool) (k : Kernel) (root : ℕ) (hk : OneProcess k root)
    (events : List FamilyEvent)
    (hforks : Along (step strict) (Succeeds strict) (start k root) events) :
    let s := exec (step strict) (start k root) events
    (∀ p ∈ s.members, s.members = [root] ∨ ∃ content, s.due p = some content ∧
        ∀ virt, IsUser virt → s.kernel.load p virt = content virt) ∧
      ∀ f, k.frames.refs f = (leaves k.mem root).count f →
        f ∉ s.members.flatMap (tables s.kernel.mem) →
        s.kernel.frames.refs f = (s.members.flatMap (leaves s.kernel.mem)).count f := by
  intro s
  have hapart : s.Apart (othersOf k root) root :=
    hforks.invariant ⟨⟨_, hk.ledger⟩, .inl ⟨rfl, rfl⟩⟩ fun s e h hok => h.step e hok
  refine ⟨fun p hp => ?_, fun f hf hnot => ?_⟩
  · rcases hapart.seen with ⟨hmembers, -⟩ | hprivate
    · exact .inl hmembers
    · exact .inr (hprivate.reads p hp)
  · obtain ⟨T, hbooks⟩ := hapart.books
    refine hbooks.refs_eq_leaves ?_ hnot
    change othersOf k root f = 0
    rw [othersOf, hf]
    omega

/-- Four tables, and a page at `0x1000`. -/
def sampleMem : PhysMem := fun t i =>
  if t = 0 ∧ i = 0 then .setAddr (frameAddr 2) 7
  else if t = 2 ∧ i = 0 then .setAddr (frameAddr 3) 7
  else if t = 3 ∧ i = 0 then .setAddr (frameAddr 4) 7
  else if t = 4 ∧ i = 1 then .setAddr (frameAddr 1) 7
  else 0

def sampleProcess : Kernel :=
  { SpaceRun.sampleKernel with
    frames := (FrameAllocator.allocateFrames 5 [] SpaceRun.sampleKernel.frames).2
    mem := sampleMem }

theorem oneProcess_sample : OneProcess sampleProcess 0 := by
  have htables : tables sampleProcess.mem 0 = [0, 2, 3, 4] := by decide +kernel
  have hleaves : leaves sampleProcess.mem 0 = [1] := by decide +kernel
  refine ⟨?_, fun n _ t _ i _ _ => ?_, ?_, ?_, ?_⟩
  · rcases SpaceRun.sound_sampleKernel.allocateFrames_cases 5 [] with ⟨_, _, heq, -, hsound, -⟩ |
      ⟨_, heq, hsound, -⟩
    · simpa [sampleProcess, heq] using hsound
    · simpa [sampleProcess, heq] using hsound
  · change (sampleMem t i).isHuge = false
    simp only [sampleMem]
    split_ifs
    · decide
    · decide
    · decide
    · decide
    · decide
  · rw [htables]
    decide
  · rw [htables]
    decide +kernel
  · rw [htables, hleaves]
    decide +kernel

def sampleEvents : List FamilyEvent :=
  [.fork 0, .write 5 ⟨0x1000, by decide⟩ (fun _ => 7), .write 0 ⟨0x1008, by decide⟩ (· + 1)]

theorem load_sample :
    (exec (step true) (start sampleProcess 0) sampleEvents).kernel.load 5 0x1000 = some 7 ∧
      (exec (step true) (start sampleProcess 0) sampleEvents).kernel.load 0 0x1000 = some 0 := by
  decide +kernel

/-- The parent has not got the word of the child, and each member has its page. -/
theorem isolated_sample : ∃ s, s = exec (step true) (start sampleProcess 0) sampleEvents ∧
    s.kernel.load 5 0x1000 = some 7 ∧ s.kernel.load 0 0x1000 = some 0 ∧
    (∀ p ∈ s.members, s.members = [0] ∨ ∃ content, s.due p = some content ∧
        ∀ virt, IsUser virt → s.kernel.load p virt = content virt) ∧
      ∀ f, sampleProcess.frames.refs f = (leaves sampleProcess.mem 0).count f →
        f ∉ s.members.flatMap (tables s.kernel.mem) →
        s.kernel.frames.refs f = (s.members.flatMap (leaves s.kernel.mem)).count f :=
  ⟨_, rfl, load_sample.1, load_sample.2,
    isolated true sampleProcess 0 oneProcess_sample sampleEvents
      ⟨fun _ => by decide +kernel, trivial, trivial, trivial⟩⟩

end Family

end IonaOs.Process
