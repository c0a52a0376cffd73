import Xhyper.Board
import Xhyper.GicInit
import Xhyper.Lib.Oblivious
import Mathlib.Tactic.IntervalCases

/-!
# From power-on to the guest

`hyper_init_primary` sets up the allocators, the interrupt controller and the core's own registers,
makes the guest with its two virtual CPUs and starts the first one.  What is in memory and in the
registers before does not matter, except for a few variables that are zero.

The messages on the console are left out, and so is the mask of the core's own interrupts.

## Main definitions

* `guestVmCfg` — the guest of `main.c`.
* `hyperInitPrimary`, `hyperInitSecondary` — what the cores do.
* `socInit`, `socInit_returns` — the set-up in front of the guest.
* `Board.Shows` — what a core finds in a guest's memory.
* `hyper_init_primary_enters` — the primary core enters the guest.
-/

namespace Xhyper

open Memory Prog

/-! ## The code -/

/-- `guest_vm_cfg`, for the three images. -/
def guestVmCfg (image dtb rootfs : Guest) : VmConfig where
  guestImage := some image
  guestDtb := some dtb
  guestInitrd := some rootfs
  entryAddr := 0x80600000
  dtbAddr := 0x80000000
  rootfsAddr := 0x84000000
  ramSize := 0x8000000
  ncpu := 2

/-- Change the control registers of the core that runs. -/
def modifyEl2 (f : El2Regs → El2Regs) : Exec Soc Unit :=
  modify fun s => { s with el2 := Function.update s.el2 s.core (f (s.el2 s.core)) }

/-- `hyper_init_primary`, up to the loop that is never reached. -/
def hyperInitPrimary (P : Platform) (himageEnd : ℕ) (hyperVector : BitVec 64)
    (image dtb rootfs : Guest) : Exec Soc Unit := do
  let _ ← onHyp (zoom Hyp.heapPart (xmallocInit (blkPoolStart himageEnd)))
  onHyp (zoom Hyp.ramPart (kallocInit himageEnd))
  gicV3Init
  modifyEl2 stage2MmuInit
  modifyEl2 (hyperSetup hyperVector)
  onHyp pcpuInit
  onHyp vcpuInit
  onHyp (createGuestVm P (guestVmCfg image dtb rootfs))
  onHyp startVcpu

/-- `hyper_init_secondary`. -/
def hyperInitSecondary (hyperVector : BitVec 64) : Exec Soc Unit := do
  gicPercpuInit
  modifyEl2 stage2MmuInit
  modifyEl2 (hyperSetup hyperVector)
  onHyp startVcpu

/-- What the guests can see of the hardware, with the cores that have entered one. -/
def Soc.board (s : Soc) (entered : Fin ncpu → Bool) : Board := ⟨s.hyp, s.el2, entered⟩

/-! ## The allocators and the arrays -/

section init
variable {himageEnd : ℕ} {d : Gicd} {gicr : ℕ → BitVec 32} {cores : ℕ → CoreRegs} {spis : ℤ}
  {blocks : List (Fin blkSliceBit)}

/-- The set-up of the allocators and the arrays does not look at the interrupt controller. -/
theorem oblivious_hyperInit (himageEnd : ℕ) :
    Oblivious (fun h : Hyp => h.withController d gicr cores spis) (hyperInit himageEnd) := by
  refine .bind (.zoom _ (fun _ => rfl) fun _ _ => rfl) fun _ => ?_
  refine .bind (.zoom _ (fun _ => rfl) fun _ _ => rfl) fun _ => ?_
  exact .bind (.modify fun _ => rfl) fun _ => .modify fun _ => rfl

/-- The variables that are zero when the hypervisor starts. -/
structure Hyp.Zeroed (h : Hyp) : Prop where
  freelist : h.ram.pages.freelist = 0
  pages_lock : h.ram.pages.lock.word = 0
  blk_lock : h.sysBlk.blkLock.word = 0
  vcpus_lock : h.vcpusLock.word = 0

theorem archSpinlockInit_of_free {k : Spinlock} (hk : k.word = 0) :
    archSpinlockInit k = { coreid := -1, word := 0 } := by
  simp [archSpinlockInit, hk]

theorem IsImage.pos (himg : IsImage himageEnd) : 0 < himageEnd := by
  have hpool := himg.pool
  simp only [pageSize, himageVaddr] at hpool
  omega

/-- **The allocators and the arrays** can be set up in any memory, and the images stay. -/
theorem hyperInit_returns (himg : IsImage himageEnd)
    (hblocks : ∀ c : Fin blkSliceBit, blocks.count c * 2 ^ c.val ≤ 1024) {h : Hyp} (Z : h.Zeroed) :
    wp (hyperInit himageEnd) (fun _ s => Provided (poolStart himageEnd) h.gicMaxSpi blocks
        (initPages himageEnd ((phyEnd - himageEnd) / pageSize)) 0 s ∧
      Set.EqOn s.ram.mem h.ram.mem {x | x < blkPoolStart himageEnd}) (fun _ _ => False) h := by
  have hhigh : HighPages (poolStart himageEnd)
      (initPages himageEnd ((phyEnd - himageEnd) / pageSize)) := by
    refine himg.highPages fun p hp => ?_
    obtain ⟨i, _, rfl⟩ := mem_initPages.mp hp
    exact Nat.le_add_right _ _
  have hroom : ∀ lock, (freshPool lock (poolStart himageEnd)).RoomFor blocks := by
    intro lock
    refine ⟨fun c => Nat.zero_le _, fun c _ => ⟨rfl, rfl⟩, fun c => ?_⟩
    rw [show ((freshPool lock (poolStart himageEnd)).blkList c).sliceOffset = 0 from rfl,
      Nat.zero_add]
    exact hblocks c
  have hwp : wp (hyperInit himageEnd) (fun _ s => (Able (poolStart himageEnd) h.gicMaxSpi blocks s ∧
      s.ram.Pool (initPages himageEnd ((phyEnd - himageEnd) / pageSize))) ∧
      Set.EqOn s.ram.mem h.ram.mem {x | x < blkPoolStart himageEnd}) (fun _ _ => False) h := by
    rw [hyperInit, wp_bind, wp_zoom, xmallocInit]
    refine (wp_blkPoolInit himg.region).mpr ?_
    generalize ht : Hyp.heapPart.set _ h = t
    have hpages : t.ram.pages = h.ram.pages := by simp only [← ht, Hyp.set_heapPart]
    have hpool : t.sysBlk = freshPool (archSpinlockInit h.sysBlk.blkLock) (poolStart himageEnd) := by
      simp only [← ht, Hyp.set_heapPart, Hyp.get_heapPart]
    have hlock : t.vcpusLock = h.vcpusLock := by simp only [← ht, Hyp.set_heapPart]
    have hspis : t.gicMaxSpi = h.gicMaxSpi := by simp only [← ht, Hyp.set_heapPart]
    have hfill : Set.EqOn t.ram.mem h.ram.mem (block (poolStart himageEnd) configBlkSize)ᶜ := by
      simp only [← ht, Hyp.set_heapPart, Hyp.get_heapPart]
      exact eqOn_fill _ _ _ _
    clear ht
    rw [wp_bind, wp_zoom]
    refine wp_mono (kallocInit_spec himg.aligned himg.pos ?_ ?_) ?_ fun _ _ h => h
    · rw [Hyp.get_ramPart, hpages]
      exact archSpinlockInit_of_free Z.pages_lock
    · rw [Hyp.get_ramPart, hpages]
      exact Z.freelist
    rintro _ r ⟨H, hmem, _⟩
    simp only [pcpuInit, vcpuInit, wp_bind, wp_modify]
    refine ⟨⟨⟨⟨[], ?_⟩, ?_, ?_, ?_, hspis⟩, H⟩, fun x hx => ?_⟩
    · simp only [Hyp.get_heapPart, Hyp.set_ramPart, hpool]
      exact freshPool_blocks himg.region _ _ _
    · simp only [Hyp.set_ramPart, hpool]
      exact hroom _
    · simp only [Hyp.set_ramPart, hpool, freshPool, archSpinlockInit_of_free Z.blk_lock]
    · simp only [Hyp.set_ramPart, hlock, archSpinlockInit_of_free Z.vcpus_lock]
    · have hx' : x < blkPoolStart himageEnd := hx
      have hlt : x < himageEnd := hx'.trans_le (Nat.sub_le _ _)
      have hstart : blkPoolStart himageEnd ≤ poolStart himageEnd := Nat.le_add_right _ _
      have hout : x ∉ block (poolStart himageEnd) configBlkSize := fun hin =>
        absurd (mem_block.mp hin).1 (by omega)
      exact (hmem hlt).trans (hfill hout)
  obtain ⟨_, s, hs, ⟨A, H⟩, hmem⟩ := exists_ok_of_wp hwp
  have hboot : Booted himageEnd s := ⟨h, Z.freelist, Z.pages_lock, hs⟩
  exact wp_of_ok hs ⟨⟨A, H, hhigh, (hboot.slots himg).2⟩, hmem⟩

/-- **A machine is made** when the blocks and the pages for it are there. -/
theorem Provided.make {P : Platform} {start n base : ℕ} {l₀ : List ℕ} {c : Fin blkSliceBit}
    {cfg : VmConfig} {image : Guest} {s : Hyp}
    (V : Provided start spis (cfg.blocks c ++ blocks) l₀ base s) (S : Slots start s)
    (hc : ofClass (nspis spis) c) (hfit : base + cfg.slots ≤ ncpu)
    (himage : cfg.guestImage = some image) (hname : image.guestName.length < vmNameLen)
    (hcpus : cfg.ncpu ≤ ncpu) (htables : TablesWithin start l₀ cfg n) :
    ∃ s' vm live, createGuestVm P cfg s = .ok () s' ∧ Guested start live base cfg s vm s' := by
  obtain ⟨live, H, _⟩ := S.heap
  have hwp := @wp_total _ _ _ _ _ _ (fun _ _ => False) _
    (buildGuestVm_of_tables (P := P) V.able hc V.used hfit himage hname hcpus htables V.pool V.high)
    (buildGuestVm_ends V.used H)
  have hwp' : wp (createGuestVm P cfg) (fun _ s' => ∃ vm, Guested start live base cfg s vm s')
      (fun _ _ => False) s := by
    rw [createGuestVm, wp_bind]
    exact wp_mono hwp (fun vm s' h => ⟨vm, h.2⟩) fun _ _ h => h
  obtain ⟨_, s', hs', vm, G⟩ := exists_ok_of_wp hwp'
  exact ⟨s', vm, live, hs', G⟩

end init

/-! ## The set-up -/

section setup
variable {himageEnd : ℕ} {hyperVector : BitVec 64} {blocks : List (Fin blkSliceBit)} {s s' : Soc}

/-- What `hyper_init_primary` does in front of `create_guest_vm`. -/
def socInit (himageEnd : ℕ) (hyperVector : BitVec 64) : Exec Soc Unit := do
  let _ ← onHyp (zoom Hyp.heapPart (xmallocInit (blkPoolStart himageEnd)))
  onHyp (zoom Hyp.ramPart (kallocInit himageEnd))
  gicV3Init
  modifyEl2 stage2MmuInit
  modifyEl2 (hyperSetup hyperVector)
  onHyp pcpuInit
  onHyp vcpuInit

theorem hyperInitPrimary_eq (P : Platform) (image dtb rootfs : Guest) :
    hyperInitPrimary P himageEnd hyperVector image dtb rootfs = (do
      socInit himageEnd hyperVector
      onHyp (createGuestVm P (guestVmCfg image dtb rootfs))
      onHyp startVcpu) := by
  simp only [hyperInitPrimary, socInit, bind_assoc]

/-- What is there when the guest is made. -/
structure Soc.Prepared (himageEnd : ℕ) (hyperVector : BitVec 64) (blocks : List (Fin blkSliceBit))
    (s s' : Soc) : Prop where
  booted : Booted himageEnd s'.hyp
  provided : Provided (poolStart himageEnd) (32 * s.hyp.gicd.lines - 1) blocks
    (initPages himageEnd ((phyEnd - himageEnd) / pageSize)) 0 s'.here
  mem : Set.EqOn s'.hyp.ram.mem s.hyp.ram.mem {x | x < blkPoolStart himageEnd}
  dist : s'.hyp.gicd.Ready s.hyp.gicd.lines
  gicr : s'.hyp.gicr s.core = 0#32
  core : s'.core = s.core
  el2 : s'.el2 =
    Function.update s.el2 s.core (hyperSetup hyperVector (stage2MmuInit (s.el2 s.core)))
  ready : (s'.gic s.core).Ready

theorem onHyp_of_ok {α : Type} {x : Exec Hyp α} {a : α} {h : Hyp} (hx : x s.here = .ok a h) :
    onHyp x s = .ok a (s.setHyp h) := by
  simp only [onHyp, hx]

/-- A state that is seen from the core that runs. -/
theorem Soc.here_of_core (hcore : s.hyp.ram.core = s.core) : s.here = s.hyp := by
  rw [Soc.here, Hyp.onCore, ← hcore]

/-- The allocators are set up on the core that runs. -/
theorem allocators_run (himg : IsImage himageEnd) (Z : s.hyp.Zeroed) {u : Hyp}
    (hu : hyperInit himageEnd s.here = .ok () u) : ∃ a t₁ t,
      onHyp (zoom Hyp.heapPart (xmallocInit (blkPoolStart himageEnd))) s = .ok a (s.setHyp t₁) ∧
      onHyp (zoom Hyp.ramPart (kallocInit himageEnd)) (s.setHyp t₁) = .ok () (s.setHyp t) ∧
      (pcpuInit >>= fun _ => vcpuInit) t = .ok () u ∧ t.ram.core = s.core ∧
      t.gicd = s.hyp.gicd := by
  obtain ⟨a, t₁, h₁, hrest⟩ := ok_of_bind hu
  obtain ⟨_, t, h₂, hrest⟩ := ok_of_bind hrest
  obtain ⟨hcore₁, hpages, hgicd₁⟩ : t₁.ram.core = s.core ∧ t₁.ram.pages = s.hyp.ram.pages ∧
      t₁.gicd = s.hyp.gicd := by
    have hwp : wp (zoom Hyp.heapPart (xmallocInit (blkPoolStart himageEnd)))
        (fun _ t => t.ram.core = s.core ∧ t.ram.pages = s.hyp.ram.pages ∧ t.gicd = s.hyp.gicd)
        (fun _ _ => True) s.here := by
      rw [wp_zoom, xmallocInit]
      exact (wp_blkPoolInit himg.region).mpr ⟨rfl, rfl, rfl⟩
    have hend := ok_of_wp hwp h₁
    exact hend
  obtain ⟨hcore, hgicd⟩ : t.ram.core = t₁.ram.core ∧ t.gicd = t₁.gicd := by
    have hwp : wp (zoom Hyp.ramPart (kallocInit himageEnd))
        (fun _ t => t.ram.core = t₁.ram.core ∧ t.gicd = t₁.gicd) (fun _ _ => True) t₁ := by
      rw [wp_zoom]
      refine wp_mono (kallocInit_spec (E := fun _ _ => True) himg.aligned himg.pos ?_ ?_)
        (fun _ _ h => ⟨h.2.2, rfl⟩) fun _ _ h => h
      · rw [Hyp.get_ramPart, hpages]
        exact archSpinlockInit_of_free Z.pages_lock
      · rw [Hyp.get_ramPart, hpages]
        exact Z.freelist
    have hend := ok_of_wp hwp h₂
    exact hend
  have hhere : (s.setHyp t₁).here = t₁ := Soc.here_of_core hcore₁
  rw [← hhere] at h₂
  exact ⟨a, t₁, t, onHyp_of_ok h₁, onHyp_of_ok h₂, hrest, hcore.trans hcore₁, hgicd.trans hgicd₁⟩

/-- Both functions for the control registers, in front of another program. -/
theorem setupEl2_bind {α : Type} (x : Exec Soc α) :
    (do
      modifyEl2 stage2MmuInit
      modifyEl2 (hyperSetup hyperVector)
      x) s = x { s with
        el2 := Function.update s.el2 s.core
          (hyperSetup hyperVector (stage2MmuInit (s.el2 s.core))) } := by
  have hel2 : ∀ (f : El2Regs → El2Regs) (s : Soc), modifyEl2 f s =
      .ok () { s with el2 := Function.update s.el2 s.core (f (s.el2 s.core)) } := fun _ _ => rfl
  rw [bind_of_ok (hel2 _ _), bind_of_ok (hel2 _ _)]
  simp only [Function.update_self, Function.update_idem]

/-- The registers of the core and the arrays come last. -/
theorem socInit_end {u : Hyp} (hu : (pcpuInit >>= fun _ => vcpuInit) s.here = .ok () u) :
    (do
      modifyEl2 stage2MmuInit
      modifyEl2 (hyperSetup hyperVector)
      onHyp pcpuInit
      onHyp vcpuInit) s = .ok () { s with
        hyp := u
        el2 := Function.update s.el2 s.core
          (hyperSetup hyperVector (stage2MmuInit (s.el2 s.core))) } := by
  obtain ⟨_, t, ht, hv⟩ := ok_of_bind hu
  cases ht
  rw [setupEl2_bind]
  cases hv
  rfl

/-- **The set-up** returns, whatever was in the registers and in memory before. -/
theorem socInit_returns (hyperVector : BitVec 64) (himg : IsImage himageEnd)
    (hblocks : ∀ c : Fin blkSliceBit, blocks.count c * 2 ^ c.val ≤ 1024) (Z : s.hyp.Zeroed) :
    wp (socInit himageEnd hyperVector) (fun _ s' => s.Prepared himageEnd hyperVector blocks s')
      (fun _ _ => False) s := by
  have Z' : s.here.Zeroed := ⟨Z.freelist, Z.pages_lock, Z.blk_lock, Z.vcpus_lock⟩
  obtain ⟨_, u, hu, -⟩ := exists_ok_of_wp (hyperInit_returns himg hblocks Z')
  obtain ⟨a, t₁, t, h₁, h₂, hrest, hcore, hgicd⟩ := allocators_run himg Z hu
  obtain ⟨_, s₃, h₃, G⟩ := exists_ok_of_wp (gicV3Init_spec (s.setHyp t))
  obtain ⟨hdist, hhyp, hgicr, hcore₃, hel2, hready⟩ := G
  have hhere_t : (s.setHyp t).here = t := Soc.here_of_core hcore
  rw [hhere_t, Soc.setHyp_hyp, hgicd] at hhyp
  rw [Soc.setHyp_hyp, hgicd] at hdist
  rw [Soc.setHyp_core] at hcore₃ hgicr hready
  -- on a controller that is set up the allocators and the arrays do the same
  generalize hd : s₃.hyp.gicd = d at *
  generalize hr : s₃.hyp.gicr = gicr at *
  generalize s₃.hyp.cores = cores at *
  have Z'' : (s.here.withController d gicr cores (32 * s.hyp.gicd.lines - 1)).Zeroed :=
    ⟨Z.freelist, Z.pages_lock, Z.blk_lock, Z.vcpus_lock⟩
  have hrun : hyperInit himageEnd (s.here.withController d gicr cores (32 * s.hyp.gicd.lines - 1)) =
      .ok () (u.withController d gicr cores (32 * s.hyp.gicd.lines - 1)) := by
    rw [oblivious_hyperInit himageEnd s.here, hu, mapState]
  have hend := ok_of_wp (hyperInit_returns himg hblocks Z'') hrun
  have hhere : s₃.here = t.withController d gicr cores (32 * s.hyp.gicd.lines - 1) := by
    rw [Soc.here, hhyp, hcore₃, ← hcore]
    rfl
  have hlast : (pcpuInit >>= fun _ => vcpuInit) s₃.here =
      .ok () (u.withController d gicr cores (32 * s.hyp.gicd.lines - 1)) := by
    rw [hhere]
    cases hrest
    rfl
  have hu_core : u.ram.core = s.core := by
    cases hrest
    exact hcore
  rw [socInit]
  refine wp_of_ok ((bind_of_ok h₁).trans ((bind_of_ok h₂).trans ((bind_of_ok h₃).trans
    (socInit_end hlast)))) ?_
  refine ⟨⟨_, Z''.freelist, Z''.pages_lock, hrun⟩, ?_, hend.2, hdist, hgicr, hcore₃, ?_, hready⟩
  · rw [Soc.here_of_core]
    · exact hend.1
    · rw [hcore₃]
      exact hu_core
  · rw [hel2, hcore₃]
    rfl

end setup

/-! ## The guest of `main.c` -/

section guest
variable {himageEnd : ℕ} {image dtb rootfs : Guest}

/-- The images are linked into the hypervisor, in front of the heap, and fit their places in the
guest's memory. -/
structure Linked (himageEnd : ℕ) (image dtb rootfs : Guest) : Prop where
  image_pos : 0 < image.imageSize
  dtb_pos : 0 < dtb.imageSize
  rootfs_pos : 0 < rootfs.imageSize
  image_end : image.startAddr + image.imageSize ≤ blkPoolStart himageEnd
  dtb_end : dtb.startAddr + dtb.imageSize ≤ blkPoolStart himageEnd
  rootfs_end : rootfs.startAddr + rootfs.imageSize ≤ blkPoolStart himageEnd
  dtb_fits : dtb.imageSize ≤ 0x600000
  rootfs_fits : rootfs.imageSize ≤ 0x4600000
  name : image.guestName.length < vmNameLen

/-- The images are in front of the heap. -/
theorem Linked.ends (L : Linked himageEnd image dtb rootfs) {g : Guest}
    (hg : g ∈ [image, dtb, rootfs]) : g.startAddr + g.imageSize ≤ blkPoolStart himageEnd := by
  simp only [List.mem_cons, List.not_mem_nil, or_false] at hg
  rcases hg with rfl | rfl | rfl
  · exact L.image_end
  · exact L.dtb_end
  · exact L.rootfs_end

theorem Linked.heap (L : Linked himageEnd image dtb rootfs) :
    ∀ g ∈ [image, dtb, rootfs], ∀ i < g.imageSize,
      g.startAddr + i ∉ block (poolStart himageEnd) configBlkSize := by
  intro g hg i hi hin
  have hend := L.ends hg
  have hstart : blkPoolStart himageEnd ≤ poolStart himageEnd := Nat.le_add_right _ _
  exact absurd (mem_block.mp hin).1 (by omega)

/-- Writing behind the images changes none of them. -/
theorem Linked.same (L : Linked himageEnd image dtb rootfs) {m₀ m : Mem}
    (hm : Set.EqOn m m₀ {x | x < blkPoolStart himageEnd}) {g : Guest}
    (hg : g ∈ [image, dtb, rootfs]) : g.Same m₀ m := by
  intro i hi
  have hend := L.ends hg
  exact hm (show g.startAddr + i < blkPoolStart himageEnd by omega)

/-- An image in front of the heap is in no free page. -/
theorem Linked.outside {g : Guest} (hend : g.startAddr + g.imageSize ≤ blkPoolStart himageEnd)
    {l : List ℕ} {r : ℕ} (hl : ∀ p ∈ r :: l, himageEnd ≤ p) :
    Outside l r g.startAddr g.imageSize := by
  have hle : blkPoolStart himageEnd ≤ himageEnd := Nat.sub_le _ _
  have hout : ∀ i < g.imageSize, ∀ p, himageEnd ≤ p → g.startAddr + i ∉ block p pageSize :=
    fun i hi p hp hin => absurd (mem_block.mp hin).1 (by omega)
  exact fun i hi => ⟨hout i hi r (hl r List.mem_cons_self),
    fun p hp => hout i hi p (hl p (List.mem_cons_of_mem _ hp))⟩

/-- Both ranges of the guest's memory are behind the devices. -/
theorem clearRange_high {a n : ℕ} (ha : a % pageSize = 0) (hlo : 0x80000000 ≤ a)
    (hb : a + n * pageSize ≤ 2 ^ 48) : ClearRange a n := by
  refine ⟨ha, hb, fun x hx _ hgic => ?_⟩
  simp only [InGicBlock, gicdBase] at hgic
  omega

/-- **The guest can be made** from any pages behind the image. -/
theorem Linked.creatable (L : Linked himageEnd image dtb rootfs) (himg : IsImage himageEnd)
    {l₀ : List ℕ} (hl : ∀ p ∈ l₀, himageEnd ≤ p) :
    Creatable l₀ (guestVmCfg image dtb rootfs) image dtb rootfs := by
  have hle := himg.le
  have hpool : blkPoolStart himageEnd ≤ himageEnd := Nat.sub_le _ _
  have hphys : phyEnd = 0x50000000 := rfl
  rw [hphys] at hle
  have hbytes : 0x8000000 ≤ (guestVmCfg image dtb rootfs).ramPages image * pageSize ∧
      (guestVmCfg image dtb rootfs).ramPages image * pageSize ≤ 0x50001000 := by
    have hend := L.image_end
    have hram : (guestVmCfg image dtb rootfs).ramSize = 0x8000000 := rfl
    simp only [VmConfig.ramPages, pagesFor, pageSize, hram] at *
    omega
  have hdtb : pagesFor dtb.imageSize * pageSize ≤ 0x600000 := by
    have hfits := L.dtb_fits
    simp only [pagesFor, pageSize]
    omega
  have hentry : (guestVmCfg image dtb rootfs).entryAddr = 0x80600000 := rfl
  have hdtbAddr : (guestVmCfg image dtb rootfs).dtbAddr = 0x80000000 := rfl
  have hrootfs : (guestVmCfg image dtb rootfs).rootfsAddr = 0x84000000 := rfl
  have hport : pl011Base = 0x09000000 := rfl
  have hcount : (2 : ℤ) ≤ ncpu := by decide
  have hentry_page : (guestVmCfg image dtb rootfs).entryAddr % pageSize = 0 := by
    rw [hentry]
    decide
  have hdtb_page : (guestVmCfg image dtb rootfs).dtbAddr % pageSize = 0 := by
    rw [hdtbAddr]
    decide
  obtain ⟨himage_pos, hdtb_pos, hrootfs_pos, himage_end, hdtb_end, hrootfs_end, hdtb_fits,
    hrootfs_fits, hname⟩ := L
  refine ⟨fun r l h => ?_, ⟨fun g hg => ?_, fun g hg => ?_⟩, by omega, by omega, hname, hcount⟩
  · subst h
    refine ⟨rfl, rfl, rfl, himage_pos, hdtb_pos, hrootfs_pos, hentry_page, hdtb_page, by omega,
      by omega, Or.inr (by omega), by omega, by omega, by omega, by omega, by omega,
      Linked.outside himage_end hl, Linked.outside hdtb_end hl, Linked.outside hrootfs_end hl⟩
  · obtain rfl : image = g := Option.some_inj.mp hg
    exact clearRange_high hentry_page (by omega) (by omega)
  · obtain rfl : dtb = g := Option.some_inj.mp hg
    exact clearRange_high hdtb_page (by omega) (by omega)

/-- The blocks that the guest takes are there for any number of interrupts up to 544. -/
theorem exists_class {n : ℕ} (hpos : 1 ≤ n) (hle : n ≤ 17) : ∃ c : Fin blkSliceBit,
    ofClass (nspis (32 * n - 1)) c ∧ ∀ c' : Fin blkSliceBit,
      ((guestVmCfg image dtb rootfs).blocks c ++ []).count c' * 2 ^ c'.val ≤ 1024 := by
  have hslots : (guestVmCfg image dtb rootfs).slots = 2 := rfl
  simp only [VmConfig.blocks, hslots]
  interval_cases n <;> decide

end guest

/-! ## What the guest finds -/

section enter
variable {P : Platform} {himageEnd : ℕ} {hyperVector : BitVec 64} {image dtb rootfs : Guest}

/-- A core that runs a guest finds at every address what the configuration says, with every kind of
access: the images in the memory `m₀` and zeros behind them, the serial port, and a fault everywhere
else, also behind the addresses that the tables have. -/
structure Board.Shows (b : Board) (c : Fin ncpu) (cfg : VmConfig) (image dtb rootfs : Guest)
    (m₀ : Mem) : Prop where
  byte : ∀ ipa < 2 ^ 44, vpn ipa ≠ vpn pl011Base → ∀ v,
    cfg.byteAt image dtb rootfs m₀ ipa = some v → ∀ k,
      ∃ f, b.access c ipa k = .ok f ∧ b.hyp.ram.mem f.pa = v
  fault : ∀ ipa < 2 ^ 44, vpn ipa ≠ vpn pl011Base →
    cfg.byteAt image dtb rootfs m₀ ipa = none → ∀ k,
      ∃ level, b.access c ipa k = .error (.translation level)
  high : ∀ ipa, 2 ^ 44 ≤ ipa → ∀ k, b.access c ipa k = .error (.translation 0)
  port : ∀ ipa ∈ block pl011Base pageSize, ∀ k, ∃ f, b.access c ipa k = .ok f ∧ f.pa = ipa

/-- The images may be looked up in any memory that has them. -/
theorem Stocked.of_images {cfg : VmConfig} {m₀ m₁ m : Mem} {r : ℕ}
    (T : Stocked cfg image dtb rootfs m₁ m r) (himage : image.Same m₀ m₁) (hdtb : dtb.Same m₀ m₁)
    (hrootfs : rootfs.Same m₀ m₁) : Stocked cfg image dtb rootfs m₀ m r := by
  refine ⟨fun ipa hipa hport => ?_, T.attr, T.port⟩
  rw [T.bytes ipa hipa hport, VmConfig.byteAt_congr himage hdtb hrootfs]

/-- **On stocked tables** the core finds this. -/
theorem Stocked.shows {b : Board} {own : ℕ → Set ℕ} {c i : Fin ncpu} {cfg : VmConfig} {m₀ : Mem}
    (I : BoardInv himageEnd b own) (R : b.Runs c i)
    (T : Stocked cfg image dtb rootfs m₀ b.hyp.ram.mem (b.hyp.vms (b.hyp.vcpus i).vm).vttbr) :
    b.Shows c cfg image dtb rootfs m₀ := by
  have hnormal : ∀ k, Vmsa.permits (s2pteNormal ||| s2pteRw ||| pteAf ||| pteV) k := by
    intro k
    cases k <;> decide
  have hdevice : ∀ k, Vmsa.permits (s2pteDevice ||| s2pteRw ||| pteAf ||| pteV) k := by
    intro k
    cases k <;> decide
  refine ⟨fun ipa hipa hport v hv k => ?_, fun ipa hipa hport hnone k => ?_,
    fun ipa hipa k => by rw [I.access_eq R, if_pos hipa], fun ipa hin k => ?_⟩
  · have hbyte := T.bytes ipa (by omega) hport
    rw [hv, guestByte, Option.map_eq_some_iff] at hbyte
    obtain ⟨⟨out, attr⟩, htrans, hmem⟩ := hbyte
    have hattr := T.attr ipa out attr hport htrans
    refine ⟨⟨out + ipa % pageSize, attr⟩, ?_, hmem⟩
    rw [I.access_eq R, if_neg (by omega), htrans]
    exact if_pos (hattr ▸ hnormal k)
  · have hbyte := T.bytes ipa (by omega) hport
    rw [hnone, guestByte_eq_none] at hbyte
    rw [I.access_eq R, if_neg (by omega), hbyte]
    exact ⟨_, rfl⟩
  · have hblock := mem_block.mp hin
    simp only [pl011Base, pageSize] at hblock
    have hvpn : vpn ipa = vpn pl011Base := by
      simp only [vpn, pl011Base, pageSize]
      omega
    have htrans : translate b.hyp.ram.mem (b.hyp.vms (b.hyp.vcpus i).vm).vttbr ipa =
        some (pl011Base, s2pteDevice ||| s2pteRw ||| pteAf ||| pteV) := by
      rw [← T.port, translate, translate, leafEntry_congr hvpn]
    refine ⟨⟨pl011Base + ipa % pageSize, s2pteDevice ||| s2pteRw ||| pteAf ||| pteV⟩, ?_, ?_⟩
    · rw [I.access_eq R, if_neg (by omega), htrans]
      exact if_pos (hdevice k)
    · simp only [pl011Base, pageSize]
      omega

end enter

/-! ## The guest is entered -/

section entered
variable {P : Platform} {himageEnd : ℕ} {hyperVector : BitVec 64} {image dtb rootfs : Guest}
  {s₀ s : Soc} {start : ℕ} {live : List ℕ} {cfg : VmConfig} {vm : ℕ}

theorem Hyp.outside_gic : Hyp.Outside fun h : Hyp => (h.gicd, h.gicr) :=
  ⟨⟨fun _ _ => rfl, fun _ _ => rfl, fun _ _ _ _ => rfl⟩, fun _ _ _ => rfl, fun _ _ _ => rfl,
    fun _ _ => rfl⟩

/-- `start_vcpu` writes to the registers of its core and to the arrays only. -/
theorem Hyp.Outside.keeps_startVcpu {ρ : Type} {f : Hyp → ρ} (O : Hyp.Outside f)
    (hpcpus : ∀ s p, f { s with pcpus := p } = f s)
    (hcores : ∀ s c, f { s with cores := c } = f s) : Keeps f startVcpu := by
  have hcore : ∀ g : CoreRegs → CoreRegs, Keeps f (modifyCore g) := fun g =>
    .modify fun s => hcores s _
  have hcur : ∀ i, Keeps f (setCurPcpu i) := fun i => .get_bind fun s => by
    split
    · exact hpcpus s _
    · rfl
  refine .bind .get fun s => ?_
  split
  · refine .ite (.throw _) ((hcur _).bind fun _ => (hcore _).bind fun _ => ?_)
    refine (O.keeps_modifyVcpu _ _).bind fun _ => .bind .get fun _ => ?_
    refine (Hyp.Aside.keeps_derefVm _ _).bind fun _ => (hcore _).bind fun _ => ?_
    exact Keeps.bind (.bind .get fun _ => hcore _) fun _ => .bind .get fun _ => hcore _
  · exact .throw _

/-- **The first virtual CPU of a new machine** is started. -/
theorem Guested.starts {h h₁ : Hyp} (G : Guested start live 0 cfg h vm h₁) (hpos : 0 < cfg.slots) :
    ∃ h₂, startVcpu (h₁.onCore 0) = .ok () h₂ ∧ Started (h₁.onCore 0) 0 h₂ ∧
      (h₂.gicd, h₂.gicr) = (h₁.gicd, h₁.gicr) := by
  have hready : (h₁.vcpus 0).state = .ready :=
    (G.run.state_eq 0 le_rfl (by simpa using hpos)).trans rfl
  have hvm : (h₁.vcpus 0).vm ≠ 0 := by
    rw [G.run.vm_eq 0 le_rfl (by simpa using hpos)]
    exact G.ne_zero
  have hwp : wp startVcpu (fun _ h₂ => Started (h₁.onCore 0) 0 h₂) (fun _ _ => False)
      (h₁.onCore 0) := wp_startVcpu rfl hready hvm fun _ h => h
  obtain ⟨_, h₂, hrun, T⟩ := exists_ok_of_wp hwp
  have hkeeps : Keeps (fun h : Hyp => (h.gicd, h.gicr)) startVcpu :=
    Hyp.outside_gic.keeps_startVcpu (fun _ _ => rfl) fun _ _ => rfl
  have hgic := hkeeps.of_ok hrun
  exact ⟨h₂, hrun, T, hgic⟩

/-- Making the machine and starting it is a run of the board, and the set-up is the boot in front. -/
theorem Soc.Prepared.runs {blocks : List (Fin blkSliceBit)} {h₁ h₂ : Hyp}
    (R : s₀.Prepared himageEnd hyperVector blocks s) (hcore : s₀.core = 0) (hcfg : GuestPlaced cfg)
    (hmake : createGuestVm P cfg s.here = .ok () h₁)
    (hstart : startVcpu (h₁.onCore 0) = .ok () h₂) :
    (onHyp (createGuestVm P cfg) >>= fun _ => onHyp startVcpu) s = .ok () (s.setHyp h₂) ∧
      ∃ b₀ trace, BoardBooted himageEnd b₀ ∧ BoardRun P himageEnd hyperVector b₀ trace
        ((s.setHyp h₂).board (Function.update (fun _ => false) 0 true)) := by
  have hs_core : s.core = 0 := R.core.trans hcore
  have hmake' := onHyp_of_ok hmake
  have hstart' : onHyp startVcpu (s.setHyp h₁) = .ok () ((s.setHyp h₁).setHyp h₂) := by
    refine onHyp_of_ok ?_
    rw [Soc.here, Soc.setHyp_core, hs_core]
    exact hstart
  refine ⟨(bind_of_ok hmake').trans hstart', ⟨s.hyp, s₀.el2, fun _ => false⟩,
    [⟨⟨h₁, s₀.el2, fun _ => false⟩, 0, .start⟩, ⟨⟨s.hyp, s₀.el2, fun _ => false⟩, 0, .create cfg⟩],
    ⟨R.booted, fun _ => rfl⟩, .step (.step .start (.create hcfg ?_)) ?_⟩
  · rw [Soc.here, hs_core] at hmake
    exact hmake
  · have hel2 : s.el2 =
        Function.update s₀.el2 0 (hyperSetup hyperVector (stage2MmuInit (s₀.el2 0))) := by
      rw [R.el2, hcore]
    rw [Soc.board, Soc.setHyp, hel2]
    exact BoardStep.start (b := ⟨h₁, s₀.el2, fun _ => false⟩) hstart

/-- The core 0 is about to enter the first virtual CPU of the guest, the second one can be turned
on, and no interrupt is on. -/
structure Soc.Entered (s : Soc) (lines : ℕ) (cfg : VmConfig) (image dtb rootfs : Guest)
    (m₀ : Mem) : Prop where
  running : (s.hyp.cores 0).tpidrEl2 = some 0
  first : (s.hyp.vcpus 0).state = .running
  second : (s.hyp.vcpus 1).state = .alloced
  others : ∀ i : Fin ncpu, 2 ≤ i.val → (s.hyp.vcpus i).state = .unused
  entry : (s.hyp.regsOf 0).Entry cfg
  shows : (s.board (Function.update (fun _ => false) 0 true)).Shows 0 cfg image dtb rootfs m₀
  shared : ∀ irq, gicMinSpi0 ≤ irq → irq < 32 * lines → s.hyp.gicd.enabled irq = false
  private_off : s.hyp.gicr 0 = 0#32
  ready : (s.gic 0).Ready

theorem length_initPages (himageEnd : ℕ) : ∀ k, (initPages himageEnd k).length = k
  | 0 => rfl
  | k + 1 => congrArg (· + 1) (length_initPages himageEnd k)

theorem Linked.creatable_pages (L : Linked himageEnd image dtb rootfs) (himg : IsImage himageEnd) :
    Creatable (initPages himageEnd ((phyEnd - himageEnd) / pageSize)) (guestVmCfg image dtb rootfs)
      image dtb rootfs := by
  refine L.creatable himg fun p hp => ?_
  obtain ⟨i, _, rfl⟩ := mem_initPages.mp hp
  exact Nat.le_add_right _ _

/-- The calls of `hyper_init_primary` return. -/
theorem primary_calls (P : Platform) (hyperVector : BitVec 64) (himg : IsImage himageEnd)
    (Z : s₀.hyp.Zeroed) (hlines : s₀.hyp.gicd.lines ≤ 17) (L : Linked himageEnd image dtb rootfs)
    (hbudget : (guestVmCfg image dtb rootfs).budget image dtb ≤ (phyEnd - himageEnd) / pageSize) :
    ∃ s h₁ h₂ vm live blocks, socInit himageEnd hyperVector s₀ = .ok () s ∧
      s₀.Prepared himageEnd hyperVector blocks s ∧
      createGuestVm P (guestVmCfg image dtb rootfs) s.here = .ok () h₁ ∧
      Guested (poolStart himageEnd) live 0 (guestVmCfg image dtb rootfs) s.here vm h₁ ∧
      startVcpu (h₁.onCore 0) = .ok () h₂ ∧ Started (h₁.onCore 0) 0 h₂ ∧
      (h₂.gicd, h₂.gicr) = (s.hyp.gicd, s.hyp.gicr) := by
  have hslots : (guestVmCfg image dtb rootfs).slots = 2 := rfl
  have hcpus : (guestVmCfg image dtb rootfs).ncpu = 2 := rfl
  obtain ⟨c, hc, hblocks⟩ := @exists_class image dtb rootfs s₀.hyp.gicd.lines (Nat.le_add_left 1 _)
    hlines
  obtain ⟨_, s, hs, R⟩ := exists_ok_of_wp (socInit_returns hyperVector himg hblocks Z)
  have S := (R.booted.slots himg).1.onCore s.core
  have hlen : (guestVmCfg image dtb rootfs).budget image dtb ≤
      (initPages himageEnd ((phyEnd - himageEnd) / pageSize)).length := by
    rw [length_initPages]
    exact hbudget
  obtain ⟨h₁, vm, live, hmake, G⟩ := R.provided.make (P := P) S hc (by rw [hslots]; decide) rfl
    L.name (by rw [hcpus]; decide)
    ((L.creatable_pages himg).tables_within R.provided.high hlen)
  obtain ⟨h₂, hstart, T, hgic⟩ := G.starts (by rw [hslots]; decide)
  have hgic' := (Hyp.outside_gic.keeps_createGuestVm P _).of_ok hmake
  exact ⟨s, h₁, h₂, vm, live, _, hs, R, hmake, G, hstart, T, hgic.trans hgic'⟩

/-- **The primary core enters the guest.**  From any memory and any registers, as long as a few
variables are zero, `hyper_init_primary` gets to the first instruction of the guest: every call on
the way returns. -/
theorem hyper_init_primary_enters (himg : IsImage himageEnd) (Z : s₀.hyp.Zeroed)
    (hcore : s₀.core = 0) (hlines : s₀.hyp.gicd.lines ≤ 17)
    (L : Linked himageEnd image dtb rootfs)
    (hbudget : (guestVmCfg image dtb rootfs).budget image dtb ≤ (phyEnd - himageEnd) / pageSize) :
    ∃ s b₀ trace, hyperInitPrimary P himageEnd hyperVector image dtb rootfs s₀ = .ok () s ∧
      BoardBooted himageEnd b₀ ∧ BoardRun P himageEnd hyperVector b₀ trace
        (s.board (Function.update (fun _ => false) 0 true)) ∧
      s.Entered s₀.hyp.gicd.lines (guestVmCfg image dtb rootfs) image dtb rootfs
        s₀.hyp.ram.mem := by
  obtain ⟨s, h₁, h₂, vm, live, blocks, hs, R, hmake, G, hstart, T, hgic⟩ :=
    primary_calls P hyperVector himg Z hlines L hbudget
  have C := L.creatable_pages himg
  have hlen : (guestVmCfg image dtb rootfs).budget image dtb ≤
      (initPages himageEnd ((phyEnd - himageEnd) / pageSize)).length := by
    rw [length_initPages]
    exact hbudget
  have hslots : (guestVmCfg image dtb rootfs).slots = 2 := rfl
  generalize hcfg : guestVmCfg image dtb rootfs = cfg at *
  have hwp : wp (createGuestVm P cfg) (fun _ s' => (s'.regsOf 0).Entry cfg) (fun _ _ => True)
      s.here := createGuestVm_entry R.provided.used
  have hentry := ok_of_wp hwp hmake
  obtain ⟨hrun, b₀, trace, hboot, htrace⟩ := R.runs hcore C.placed hmake hstart
  obtain ⟨own, I⟩ := htrace.inv himg hboot
  refine ⟨s.setHyp h₂, b₀, trace, ?_, hboot, htrace, ?_⟩
  · rw [hyperInitPrimary_eq, hcfg]
    exact (bind_of_ok hs).trans hrun
  have hvcpus : h₂.vcpus = Function.update h₁.vcpus 0 { h₁.vcpus 0 with state := .running } :=
    T.vcpus
  rw [Prod.mk.injEq] at hgic
  have hlive : ∀ i : Fin ncpu, i ≠ 0 → h₂.vcpus i = h₁.vcpus i := by
    intro i hi
    rw [hvcpus, Function.update_of_ne hi]
  have hrunning : (h₂.cores 0).tpidrEl2 = some 0 := T.tpidr
  -- what the guest finds
  have hvm : (h₂.vcpus 0).vm = vm := by
    rw [hvcpus, Function.update_self]
    exact G.run.vm_eq 0 le_rfl (by rw [hslots]; decide)
  have hstocked : Stocked cfg image dtb rootfs s.hyp.ram.mem h₂.ram.mem
      (h₂.vms (h₂.vcpus 0).vm).vttbr := by
    rw [hvm, T.vms, T.ram]
    exact G.table.stocked C R.provided.pool R.provided.high hlen L.heap
  obtain ⟨i, hruns⟩ := I.guest 0 (by simp [Soc.board])
  obtain rfl : i = 0 := Option.some_inj.mp (hruns.running.symm.trans hrunning)
  refine ⟨hrunning, ?_, ?_, ?_, ?_, ?_, ?_, ?_, ?_⟩
  · rw [Soc.setHyp_hyp, hvcpus, Function.update_self]
  · rw [Soc.setHyp_hyp, hlive 1 (by decide), G.run.state_eq 1 (by decide) (by rw [hslots]; decide)]
    rfl
  · intro i hi
    have hi0 : i ≠ 0 := by
      rintro rfl
      exact absurd hi (by decide)
    rw [Soc.setHyp_hyp, hlive i hi0, G.run.other_vcpus i (by omega)]
    exact (R.provided.used i).mpr (Nat.zero_le _)
  · rw [Hyp.regsOf, Soc.setHyp_hyp, hvcpus, Function.update_self]
    exact hentry
  · exact Stocked.shows I hruns (hstocked.of_images (L.same R.mem (by simp))
      (L.same R.mem (by simp)) (L.same R.mem (by simp)))
  · intro irq hmin hmax
    rw [Soc.setHyp_hyp, hgic.1]
    exact R.dist.enabled hmin hmax
  · have hgicr := R.gicr
    rw [hcore] at hgicr
    rw [Soc.setHyp_hyp, hgic.2]
    exact hgicr
  · rw [Soc.setHyp_gic, ← hcore]
    exact R.ready

/-- A machine with 256 shared interrupts, all of them on. -/
def powerOn : Soc where
  hyp := { unbooted 0 with gicd := { enable := fun _ => ~~~0#32, regs := fun _ => 8#32 } }
  core := 0
  el2 := fun _ => ⟨0, 0, 0, 0⟩
  gic := fun _ => ⟨fun _ => 0, 0, 0, 0, 0, 0, 0, 3⟩
  gicMaxLrs := 0

/-- Three images of a few bytes, behind 64 KiB of code. -/
theorem linked_small : Linked 0x40220000 ⟨[], 0x40210000, 0x40210010, 0x10⟩
    ⟨[], 0x40211000, 0x40211003, 3⟩ ⟨[], 0x40212000, 0x40212005, 5⟩ := by
  constructor <;> decide

/-- The primary core enters such a guest. -/
theorem hyper_init_primary_enters_small : ∃ s b₀ trace,
    hyperInitPrimary obedient 0x40220000 0x40201000 ⟨[], 0x40210000, 0x40210010, 0x10⟩
      ⟨[], 0x40211000, 0x40211003, 3⟩ ⟨[], 0x40212000, 0x40212005, 5⟩ powerOn = .ok () s ∧
    BoardBooted 0x40220000 b₀ ∧ BoardRun obedient 0x40220000 0x40201000 b₀ trace
      (s.board (Function.update (fun _ => false) 0 true)) ∧
    s.Entered 9 (guestVmCfg ⟨[], 0x40210000, 0x40210010, 0x10⟩ ⟨[], 0x40211000, 0x40211003, 3⟩
      ⟨[], 0x40212000, 0x40212005, 5⟩) ⟨[], 0x40210000, 0x40210010, 0x10⟩
      ⟨[], 0x40211000, 0x40211003, 3⟩ ⟨[], 0x40212000, 0x40212005, 5⟩ fun _ => 0 :=
  @hyper_init_primary_enters obedient _ _ _ _ _ powerOn (by constructor <;> decide)
    (by constructor <;> decide) rfl (by decide) linked_small (by decide)

end entered

end Xhyper
