import Xhyper.GuestMemory
import Xhyper.Isolation
import Xhyper.Stage2Hw
import Xhyper.TrapEffect
import Xhyper.VcpuNumbers

/-!
# Guests on the cores

The cores that have entered a guest access memory through their control registers, at any time
between the steps of the hypervisor.  A store that a core translates changes memory; one that it
does not translate becomes a trap, and so do calls.  A run is any sequence of machines made,
cores started, traps that return, computations and stores of the guests, and changes of the
interrupt controller's registers.

A write to a register of the interrupt controller can go behind the records and change any memory.
Such a trap is not a part of a run: the traps of a run write to the heap alone, and to none of the
machines' own structures there.  A call does, and so does a data abort whose access names such
bytes only.

## Main definitions

* `Board` — the hypervisor's state with the control registers of the cores.
* `BoardStep`, `BoardRun` — steps and runs.
* `BoardStep.of_call`, `BoardStep.of_abort` — the traps that are steps.
* `BoardInv` — the invariant.
* `board_walks`, `board_access_private`, `board_memory_kept`, `board_gic_faults` — what a core finds
  in every run, whose memory that is, who changes it, and what is never reached.
-/

namespace Xhyper

open Memory Prog

/-- The state of the hypervisor, the control registers of each core, and which cores have entered
a guest. -/
structure Board where
  hyp : Hyp
  el2 : Fin ncpu → El2Regs
  entered : Fin ncpu → Bool

namespace Board

/-- What the core `core` makes of the address `ipa`. -/
def access (b : Board) (core : Fin ncpu) (ipa : ℕ) (k : Vmsa.Access) :
    Except Vmsa.WalkFault Vmsa.Found :=
  (b.el2 core).translate (b.hyp.cores core).vttbrEl2 b.hyp.ram.mem ipa k

/-- A byte is stored at a physical address.  The page of the serial port is no memory. -/
def stored (b : Board) (pa : ℕ) (val : Byte) : Board :=
  if pl011Base ≤ pa ∧ pa < pl011Base + pageSize then b
  else { b with
    hyp := { b.hyp with ram := { b.hyp.ram with mem := Function.update b.hyp.ram.mem pa val } } }

end Board

/-- What happens on a core. -/
inductive BoardEvent
  /-- `create_guest_vm`. -/
  | create (cfg : VmConfig)
  /-- `stage2_mmu_init`, `hyper_setup` and `start_vcpu`. -/
  | start
  /-- `el1_sync_proc`, with the syndrome registers. -/
  | trap (esr far hpfar : BitVec 64)
  /-- The guest computes; these are the registers that the next trap saves. -/
  | compute (regs : Regs)
  /-- The guest stores a byte. -/
  | store (ipa : ℕ) (val : Byte)
  /-- Registers of the cores and of the interrupt controller change that no translation looks at. -/
  | gic

/-- One step on the core `core`. -/
inductive BoardStep (P : Platform) (himageEnd : ℕ) (hyperVector : BitVec 64) (core : Fin ncpu) :
    BoardEvent → Board → Board → Prop
  | create {b : Board} {cfg : VmConfig} {s : Hyp} : GuestPlaced cfg →
      createGuestVm P cfg (b.hyp.onCore core) = .ok () s →
      BoardStep P himageEnd hyperVector core (.create cfg) b { b with hyp := s }
  | start {b : Board} {s : Hyp} : startVcpu (b.hyp.onCore core) = .ok () s →
      BoardStep P himageEnd hyperVector core .start b
        { hyp := s
          el2 := Function.update b.el2 core (hyperSetup hyperVector (stage2MmuInit (b.el2 core)))
          entered := Function.update b.entered core true }
  | trap {b : Board} {hw : GicrHw} {isen : BitVec 32} {esr far hpfar : BitVec 64} {s : Hyp} :
      b.entered core = true →
      el1SyncProc P (vgicHandlers P hw isen) esr far hpfar (b.hyp.onCore core) = .ok () s →
      (∀ x ∉ block (poolStart himageEnd) configBlkSize, s.ram.mem x = b.hyp.ram.mem x) →
      (∀ i, (b.hyp.vcpus i).state ≠ .unused → ∀ x ∈ block (b.hyp.vcpus i).vm sizeofVm,
        s.ram.mem x = b.hyp.ram.mem x) →
      BoardStep P himageEnd hyperVector core (.trap esr far hpfar) b { b with hyp := s }
  | compute {b : Board} {i : Fin ncpu} {regs : Regs} : b.entered core = true →
      (b.hyp.cores core).tpidrEl2 = some i →
      BoardStep P himageEnd hyperVector core (.compute regs) b
        { b with hyp := b.hyp.setVcpu i { b.hyp.vcpus i with regs := regs } }
  | store {b : Board} {ipa : ℕ} {val : Byte} {f : Vmsa.Found} : b.entered core = true →
      b.access core ipa .write = .ok f →
      BoardStep P himageEnd hyperVector core (.store ipa val) b (b.stored f.pa val)
  | gic {b : Board} {d : Gicd} {gicr : ℕ → BitVec 32} {cores : ℕ → CoreRegs} :
      (∀ c, (cores c).tpidrEl2 = (b.hyp.cores c).tpidrEl2 ∧
        (cores c).vttbrEl2 = (b.hyp.cores c).vttbrEl2) →
      BoardStep P himageEnd hyperVector core .gic b
        { b with hyp := { b.hyp with gicd := d, gicr := gicr, cores := cores } }

section trap
variable {P : Platform} {himageEnd : ℕ} {hyperVector esr far hpfar : BitVec 64} {core : Fin ncpu}
  {b : Board} {hw : GicrHw} {isen : BitVec 32} {s : Hyp}

/-- Any call, and any write to the system register, is a step. -/
theorem BoardStep.of_call (hin : b.entered core = true) (hec : esr >>> 26 &&& 0x3f#64 ≠ 0x24#64)
    (hrun : el1SyncProc P (vgicHandlers P hw isen) esr far hpfar (b.hyp.onCore core) = .ok () s) :
    BoardStep P himageEnd hyperVector core (.trap esr far hpfar) b { b with hyp := s } := by
  have hmem : s.ram.mem = (b.hyp.onCore core).ram.mem :=
    (keeps_mem_el1SyncProc hec far hpfar).of_ok hrun
  exact .trap hin hrun (fun x _ => congrFun hmem x) fun _ _ x _ => congrFun hmem x

/-- **A data abort is a step** if the bytes that its access can change are bytes of the heap, and
none of a machine's own structure. -/
theorem BoardStep.of_abort {v : Fin ncpu} {as : List ℕ} (hin : b.entered core = true)
    (A : AbortReady P (b.hyp.onCore core) v as esr far hpfar)
    (hheap : abortStores P (b.hyp.onCore core) v as esr far hpfar ⊆
      block (poolStart himageEnd) configBlkSize)
    (hvm : ∀ i, (b.hyp.vcpus i).state ≠ .unused →
      Disjoint (abortStores P (b.hyp.onCore core) v as esr far hpfar)
        (block (b.hyp.vcpus i).vm sizeofVm))
    (hrun : el1SyncProc P (vgicHandlers P hw isen) esr far hpfar (b.hyp.onCore core) = .ok () s) :
    BoardStep P himageEnd hyperVector core (.trap esr far hpfar) b { b with hyp := s } := by
  refine .trap hin hrun (fun x hx => ?_) fun i hi x hx => ?_
  · exact A.mem hrun fun hstore => hx (hheap hstore)
  · exact A.mem hrun fun hstore => Set.disjoint_left.mp (hvm i hi) hstore hx

/-- So is every load that the distributor does not serve. -/
theorem BoardStep.of_load {v : Fin ncpu} {as : List ℕ} (hin : b.entered core = true)
    (A : AbortReady P (b.hyp.onCore core) v as esr far hpfar) (hwnr : esrWnr esr = false)
    (hdev : ∀ offset, ¬ AbortAt P (b.hyp.onCore core) as esr far hpfar .gicd offset)
    (hrun : el1SyncProc P (vgicHandlers P hw isen) esr far hpfar (b.hyp.onCore core) = .ok () s) :
    BoardStep P himageEnd hyperVector core (.trap esr far hpfar) b { b with hyp := s } := by
  have hnone : abortStores P (b.hyp.onCore core) v as esr far hpfar = ∅ :=
    abortStores_of_load hwnr hdev
  refine .of_abort hin A ?_ (fun i _ => ?_) hrun
  · rw [hnone]
    exact Set.empty_subset _
  · rw [hnone]
    exact Set.empty_disjoint _

end trap

/-- The state in front of the first step: no core has entered a guest. -/
def BoardBooted (himageEnd : ℕ) (b : Board) : Prop :=
  Booted himageEnd b.hyp ∧ ∀ c, b.entered c = false

/-- A step of a run, with the core and the state in front of it. -/
structure BoardMove where
  pre : Board
  core : Fin ncpu
  event : BoardEvent

/-- The steps from `b₀` on, last one first, and the state they end in. -/
inductive BoardRun (P : Platform) (himageEnd : ℕ) (hyperVector : BitVec 64) (b₀ : Board) :
    List BoardMove → Board → Prop
  | start : BoardRun P himageEnd hyperVector b₀ [] b₀
  | step {trace : List BoardMove} {core : Fin ncpu} {ev : BoardEvent} {b b' : Board} :
      BoardRun P himageEnd hyperVector b₀ trace b →
      BoardStep P himageEnd hyperVector core ev b b' →
      BoardRun P himageEnd hyperVector b₀ (⟨b, core, ev⟩ :: trace) b'

/-- Runs after each other. -/
theorem BoardRun.append {P : Platform} {himageEnd : ℕ} {hyperVector : BitVec 64} {b₀ b b' : Board}
    {trace trace' : List BoardMove} (h : BoardRun P himageEnd hyperVector b₀ trace b)
    (h' : BoardRun P himageEnd hyperVector b trace' b') :
    BoardRun P himageEnd hyperVector b₀ (trace' ++ trace) b' := by
  induction h' with
  | start => exact h
  | step _ hstep ih => exact ih.step hstep

/-! ## Memory that no table is in -/

section frames
variable {m m' : Mem} {r : ℕ}

/-- The tables are kept when no table is written. -/
theorem Held.frame_tables {own : Set ℕ} (H : Held m r own)
    (hm : ∀ p t, TableAt m r p t → Set.EqOn m' m (block t pageSize)) : Held m' r own := by
  have htab := tableAt_frame hm
  have htrans : ∀ ipa, translate m' r ipa = translate m r ipa := by
    intro ipa
    rw [translate, translate, leafEntry_frame hm]
  refine ⟨H.table.frame hm, fun p t ht => H.tables p t ((htab p t).mp ht), ?_, ?_⟩
  · exact fun ipa out a h => H.outs ipa out a (htrans ipa ▸ h)
  · exact fun ipa out a p t h ht => H.apart ipa out a p t (htrans ipa ▸ h) ((htab p t).mp ht)

end frames

section isolated
variable {himageEnd : ℕ} {s s' : Hyp} {own : ℕ → Set ℕ}

/-- What writes neither to tables nor to free pages keeps the owners. -/
theorem Isolated.write (I : Isolated himageEnd s own) (hpages : s'.ram.pages = s.ram.pages)
    (hvms : s'.vms = s.vms) (hvm : ∀ a, IsVm s' a → IsVm s a)
    (htab : ∀ a, IsVm s a → ∀ p t, TableAt s.ram.mem (s.vms a).vttbr p t →
      Set.EqOn s'.ram.mem s.ram.mem (block t pageSize))
    (hfree : ∀ l, s.ram.Pool l → ∀ p ∈ l, Set.EqOn s'.ram.mem s.ram.mem (block p pageSize)) :
    Isolated himageEnd s' own := by
  obtain ⟨l, H, hl, hused⟩ := I.pool
  refine ⟨⟨l, H.frame hpages fun p hp x hx => hfree l H p hp hx, hl,
    fun a ha => hused a (hvm a ha)⟩, fun a ha => I.page a (hvm a ha), fun a ha => ?_,
    fun a b ha hb => I.apart a b (hvm a ha) (hvm b hb)⟩
  rw [hvms]
  exact (I.held a (hvm a ha)).frame_tables (htab a (hvm a ha))

/-- **Making a machine** writes to no page of another one. -/
theorem Isolated.create_frame {live : List ℕ} {base vm : ℕ} {cfg : VmConfig}
    (I : Isolated himageEnd s own) (himg : IsImage himageEnd)
    (G : Guested (poolStart himageEnd) live base cfg s vm s') (hcfg : GuestPlaced cfg) {a p : ℕ}
    (ha : IsVm s a) (hp : p ∈ own a) : Set.EqOn s'.ram.mem s.ram.mem (block p pageSize) := by
  obtain ⟨l, H, hl, hused⟩ := I.pool
  obtain ⟨l', M⟩ := G.table.placed hcfg H (himg.highPages hl)
  have himage := himg.pool
  obtain ⟨hpage, hhigh⟩ := I.page a ha p hp
  intro x hx
  have hxhigh : himageEnd ≤ x := hhigh.trans (mem_block.mp hx).1
  refine M.frame x ?_ (fun hxh => ?_) fun q hq hxq => ?_
  · simp only [pageSize, himageVaddr] at *
    omega
  · have hheap := (himg.highPages (l := [himageEnd]) (by simp)).heap himageEnd List.mem_cons_self
    simp only [mem_block] at hxh
    omega
  · apply hused a ha p hp
    rw [page_disjoint hpage.aligned (H.page q hq).aligned hx hxq]
    exact hq

/-- The serial port is not written either. -/
theorem Placed.port_frame {start : ℕ} {l₀ l : List ℕ} {r : ℕ} {u u' : Ram}
    (M : Placed start l₀ u r u' l) (H : u.Pool l₀) (hl : HighPages start l₀)
    (hstart : pl011Base + pageSize ≤ start) :
    Set.EqOn u'.mem u.mem (block pl011Base pageSize) := by
  intro x hx
  refine M.frame x ?_ (fun hxh => ?_) fun p hp hxp => ?_
  · simp only [mem_block, pl011Base, pageSize] at *
    omega
  · simp only [mem_block] at hx hxh
    omega
  · have hdevice := hl.device p hp
    have halign := (H.page p hp).aligned
    simp only [mem_block, pl011Base, pageSize] at *
    omega

/-- **A new machine** has no table for the interrupt controller's windows. -/
theorem BuildsTable.noGic {start : ℕ} {cfg : VmConfig} {l₀ : List ℕ} {r : ℕ} {u u' : Ram}
    (h : BuildsTable start cfg u r u') (G : GuestPlaced cfg) (H : u.Pool l₀)
    (hl : HighPages start l₀) (t : ℕ) : ¬ TableAt u'.mem r (tablePath gicdBase) t := by
  obtain ⟨s₁, s₂, s₃, s₄, hw, hroot, hmemory, hdevice, hrest⟩ := h
  obtain ⟨_, _, B₂⟩ := ok_of_wp (built_root (hw.pool hl H fun _ hp => hp)) hroot r rfl
  obtain ⟨_, B₃⟩ : ∃ l, Built ∅ s₁.mem l₀ r s₃ l := ok_of_wp (B₂.memory G) hmemory
  have hend := ok_of_wp (B₃.device hl.device) hdevice
  obtain ⟨l, _, B₄, _⟩ := hend
  have hw' := hrest (B₄.noGicTable hl)
  intro ht
  exact B₄.noGic t ((tableAt_frame (fun p t ht => hw'.page hl (B₄.tables p t ht)) _ t).mp ht)

end isolated

/-! ## The invariant -/

/-- The core `c` runs the virtual CPU `i` on the tables of its machine. -/
structure Board.Runs (b : Board) (c i : Fin ncpu) : Prop where
  running : (b.hyp.cores c).tpidrEl2 = some i
  used : (b.hyp.vcpus i).state ≠ .unused
  table : (b.hyp.cores c).vttbrEl2 = (b.hyp.vms (b.hyp.vcpus i).vm).vttbr
  ready : (b.el2 c).Ready

/-- **The invariant**: pages have owners and are in memory, no machine has a table for the windows
of the interrupt controller, and the cores that have entered a guest run one on its tables. -/
structure BoardInv (himageEnd : ℕ) (b : Board) (own : ℕ → Set ℕ) : Prop where
  slots : Slots (poolStart himageEnd) b.hyp
  isolated : Isolated himageEnd b.hyp own
  free_le : ∀ l, b.hyp.ram.Pool l → ∀ p ∈ l, p + pageSize ≤ phyEnd
  own_le : ∀ vm, IsVm b.hyp vm → ∀ p ∈ own vm, p + pageSize ≤ phyEnd
  noGic : ∀ vm, IsVm b.hyp vm → ∀ t,
    ¬ TableAt b.hyp.ram.mem (b.hyp.vms vm).vttbr (tablePath gicdBase) t
  guest : ∀ c, b.entered c = true → ∃ i, b.Runs c i

/-- The heap is in front of the pages. -/
theorem IsImage.heap_le {himageEnd : ℕ} (himg : IsImage himageEnd) :
    poolStart himageEnd + configBlkSize ≤ himageEnd :=
  (himg.highPages (l := [himageEnd]) (by simp)).heap himageEnd List.mem_cons_self

/-- The serial port is in front of the heap. -/
theorem IsImage.port_le {himageEnd : ℕ} (himg : IsImage himageEnd) :
    pl011Base + pageSize ≤ poolStart himageEnd := by
  have hpool := himg.pool
  have hstart : poolStart himageEnd = himageEnd - 12288 + 536 := rfl
  simp only [pageSize, himageVaddr, pl011Base] at *
  omega

section inv
variable {P : Platform} {himageEnd : ℕ} {hyperVector : BitVec 64} {b b' : Board}
  {own : ℕ → Set ℕ} {core c i : Fin ncpu} {vm ipa out a : ℕ}

theorem Board.Runs.isVm (R : b.Runs c i) : IsVm b.hyp (b.hyp.vcpus i).vm := ⟨i, R.used, rfl⟩

/-- The machines of `b` are in `b'`, with their virtual CPUs and their tables. -/
structure Board.Kept (b b' : Board) : Prop where
  machine : ∀ vm, IsVm b.hyp vm → IsVm b'.hyp vm ∧ (b'.hyp.vms vm).vttbr = (b.hyp.vms vm).vttbr
  owner : ∀ j, (b.hyp.vcpus j).state ≠ .unused → (b'.hyp.vcpus j).vm = (b.hyp.vcpus j).vm
  tables : ∀ vm, IsVm b.hyp vm → ∀ p t, TableAt b.hyp.ram.mem (b.hyp.vms vm).vttbr p t →
    Set.EqOn b'.hyp.ram.mem b.hyp.ram.mem (block t pageSize)

namespace BoardInv

/-! ### Whose a page is -/

/-- A table is a page in memory behind the image. -/
theorem table_page (I : BoardInv himageEnd b own) (hvm : IsVm b.hyp vm) {p : List ℕ} {t : ℕ}
    (ht : TableAt b.hyp.ram.mem (b.hyp.vms vm).vttbr p t) :
    IsPage t ∧ himageEnd ≤ t ∧ t + pageSize ≤ phyEnd := by
  have hown := (I.isolated.held vm hvm).tables p t ht
  obtain ⟨hpage, hhigh⟩ := I.isolated.page vm hvm t hown
  exact ⟨hpage, hhigh, I.own_le vm hvm t hown⟩

/-- A mapped page other than the serial port is behind the image. -/
theorem out_high (I : BoardInv himageEnd b own) (hvm : IsVm b.hyp vm)
    (h : translate b.hyp.ram.mem (b.hyp.vms vm).vttbr ipa = some (out, a)) :
    out = pl011Base ∨ out ∈ own vm ∧ himageEnd ≤ out ∧ out + pageSize ≤ phyEnd := by
  rcases (I.isolated.held vm hvm).outs ipa out a h with hown | hport
  · exact Or.inr ⟨hown, (I.isolated.page vm hvm out hown).2, I.own_le vm hvm out hown⟩
  · exact Or.inl hport

/-- No table is mapped, of whichever machine. -/
theorem out_no_table (I : BoardInv himageEnd b own) (himg : IsImage himageEnd)
    (hvm : IsVm b.hyp vm)
    (h : translate b.hyp.ram.mem (b.hyp.vms vm).vttbr ipa = some (out, a)) {vm' : ℕ}
    (hvm' : IsVm b.hyp vm') {p : List ℕ} {t : ℕ}
    (ht : TableAt b.hyp.ram.mem (b.hyp.vms vm').vttbr p t) : t ≠ out := by
  rcases I.out_high hvm h with rfl | ⟨hown, _, _⟩
  · obtain ⟨_, hhigh, _⟩ := I.table_page hvm' ht
    have hport := himg.port_le
    have hheap := himg.heap_le
    simp only [pageSize] at hport
    omega
  · by_cases hsame : vm' = vm
    · subst hsame
      exact (I.isolated.held vm' hvm').apart ipa out a p t h ht
    · rintro rfl
      have hdisj := Set.disjoint_left.mp (I.isolated.apart vm' vm hvm' hvm hsame)
      exact hdisj ((I.isolated.held vm' hvm').tables p _ ht) hown

/-- No free page is mapped. -/
theorem out_not_free (I : BoardInv himageEnd b own) (himg : IsImage himageEnd)
    (hvm : IsVm b.hyp vm)
    (h : translate b.hyp.ram.mem (b.hyp.vms vm).vttbr ipa = some (out, a)) {l : List ℕ}
    (H : b.hyp.ram.Pool l) : out ∉ l := by
  obtain ⟨l', H', hl, hused⟩ := I.isolated.pool
  rw [H.unique H']
  rcases I.out_high hvm h with rfl | ⟨hown, _, _⟩
  · intro hmem
    have hhigh := hl _ hmem
    have hport := himg.port_le
    have hheap := himg.heap_le
    simp only [pageSize] at hport
    omega
  · exact hused vm hvm out hown

/-- Two machines have only the serial port in common. -/
theorem out_apart (I : BoardInv himageEnd b own) (hvm : IsVm b.hyp vm)
    (h : translate b.hyp.ram.mem (b.hyp.vms vm).vttbr ipa = some (out, a)) {vm' ipa' a' : ℕ}
    (hvm' : IsVm b.hyp vm')
    (h' : translate b.hyp.ram.mem (b.hyp.vms vm').vttbr ipa' = some (out, a')) :
    out = pl011Base ∨ vm' = vm := by
  rcases I.out_high hvm h with hport | ⟨hown, _, _⟩
  · exact Or.inl hport
  rcases I.out_high hvm' h' with hport | ⟨hown', _, _⟩
  · exact Or.inl hport
  refine Or.inr (by_contra fun hne => ?_)
  exact Set.disjoint_left.mp (I.isolated.apart vm' vm hvm' hvm hne) hown' hown

/-! ### What a core finds -/

/-- Tables and pages are within the size of physical addresses. -/
theorem out_lt (I : BoardInv himageEnd b own) (hvm : IsVm b.hyp vm)
    (h : translate b.hyp.ram.mem (b.hyp.vms vm).vttbr ipa = some (out, a)) : out < 2 ^ 44 := by
  rcases I.out_high hvm h with rfl | ⟨_, _, hle⟩
  · decide
  · simp only [pageSize, phyEnd] at hle
    omega

/-- A core that runs a guest walks the tables of its machine. -/
theorem access_eq (I : BoardInv himageEnd b own) (R : b.Runs c i) (ipa : ℕ) (k : Vmsa.Access) :
    b.access c ipa k =
      if 2 ^ 44 ≤ ipa then .error (.translation 0)
      else match translate b.hyp.ram.mem (b.hyp.vms (b.hyp.vcpus i).vm).vttbr ipa with
        | none => .error (.translation (3 - missing b.hyp.ram.mem ipa [0, 1, 2]
            (b.hyp.vms (b.hyp.vcpus i).vm).vttbr))
        | some (out, attr) =>
            if Vmsa.permits attr k then .ok ⟨out + ipa % pageSize, attr⟩
            else .error (.permission 3) := by
  have hsize : ∀ p t, TableAt b.hyp.ram.mem (b.hyp.vms (b.hyp.vcpus i).vm).vttbr p t →
      t < 2 ^ 44 := by
    intro p t ht
    obtain ⟨_, _, hle⟩ := I.table_page R.isVm ht
    simp only [pageSize, phyEnd] at hle
    omega
  rw [Board.access, R.table,
    (I.isolated.held _ R.isVm).table.translate_hw hsize R.ready ipa k]
  by_cases hipa : 2 ^ 44 ≤ ipa
  · rw [if_pos hipa, if_pos hipa]
  rw [if_neg hipa, if_neg hipa]
  cases h : translate b.hyp.ram.mem (b.hyp.vms (b.hyp.vcpus i).vm).vttbr ipa with
  | none => rfl
  | some o =>
      obtain ⟨out, attr⟩ := o
      have hlt := I.out_lt R.isVm h
      dsimp only
      rw [if_neg (by omega)]

/-- What an access that succeeds goes to. -/
theorem access_ok (I : BoardInv himageEnd b own) (R : b.Runs c i) {k : Vmsa.Access}
    {f : Vmsa.Found} (h : b.access c ipa k = .ok f) :
    ∃ out attr, translate b.hyp.ram.mem (b.hyp.vms (b.hyp.vcpus i).vm).vttbr ipa =
      some (out, attr) ∧ f.pa = out + ipa % pageSize := by
  rw [I.access_eq R] at h
  split at h
  · cases h
  · split at h
    · cases h
    · rename_i out attr heq
      split at h
      · cases h
        exact ⟨out, attr, heq, rfl⟩
      · cases h

/-! ### Steps -/

/-- **A step that makes no machine** keeps the invariant if it writes neither to tables nor to free
pages. -/
theorem write (I : BoardInv himageEnd b own) (hpool : b'.hyp.sysBlk = b.hyp.sysBlk)
    (hpages : b'.hyp.ram.pages = b.hyp.ram.pages) (hvms : b'.hyp.vms = b.hyp.vms)
    (hvm : ∀ j, (b'.hyp.vcpus j).vm = (b.hyp.vcpus j).vm)
    (hused : ∀ j, (b'.hyp.vcpus j).state = .unused ↔ (b.hyp.vcpus j).state = .unused)
    (htab : ∀ a, IsVm b.hyp a → ∀ p t, TableAt b.hyp.ram.mem (b.hyp.vms a).vttbr p t →
      Set.EqOn b'.hyp.ram.mem b.hyp.ram.mem (block t pageSize))
    (hfree : ∀ l, b.hyp.ram.Pool l → ∀ p ∈ l,
      Set.EqOn b'.hyp.ram.mem b.hyp.ram.mem (block p pageSize))
    (hguest : ∀ c, b'.entered c = true → ∃ j, b'.Runs c j) :
    BoardInv himageEnd b' own ∧ b.Kept b' := by
  have hvmOf : ∀ a, IsVm b'.hyp a → IsVm b.hyp a := by
    rintro a ⟨j, hj, rfl⟩
    exact ⟨j, fun h => hj ((hused j).mpr h), (hvm j).symm⟩
  refine ⟨⟨I.slots.congr hvms hpool hvm hused, I.isolated.write hpages hvms hvmOf htab hfree,
    fun l H => ?_, fun a ha => I.own_le a (hvmOf a ha), fun a ha t ht => ?_, hguest⟩,
    ⟨fun a ha => ⟨?_, by rw [hvms]⟩, fun j _ => hvm j, htab⟩⟩
  · obtain ⟨l', H', _⟩ := I.isolated.pool
    have H'' : b'.hyp.ram.Pool l' := H'.frame hpages fun p hp x hx => hfree l' H' p hp hx
    rw [H.unique H'']
    exact I.free_le l' H'
  · rw [hvms] at ht
    exact I.noGic a (hvmOf a ha) t ((tableAt_frame (htab a (hvmOf a ha)) _ t).mp ht)
  · obtain ⟨j, hj, rfl⟩ := ha
    exact ⟨j, fun h => hj ((hused j).mp h), hvm j⟩

/-- **Making a machine.** -/
theorem create {cfg : VmConfig} {s : Hyp} (I : BoardInv himageEnd b own) (himg : IsImage himageEnd)
    (hcfg : GuestPlaced cfg) (hrun : createGuestVm P cfg (b.hyp.onCore core) = .ok () s) :
    ∃ own', BoardInv himageEnd { b with hyp := s } own' ∧ b.Kept { b with hyp := s } ∧
      ∀ vm, IsVm b.hyp vm → ∀ x, (∃ p ∈ own vm, x ∈ block p pageSize) ∨
        x ∈ block pl011Base pageSize → s.ram.mem x = b.hyp.ram.mem x := by
  have Icore : Isolated himageEnd (b.hyp.onCore core) own :=
    I.isolated.congr rfl rfl rfl fun _ h => h
  obtain ⟨S', vm, base, live, hu, hlive, G⟩ :=
    ok_of_wp (createGuestVm_ends (I.slots.onCore core)) hrun
  have hcores : s.cores = (b.hyp.onCore core).cores :=
    (Hyp.outside_cores.keeps_createGuestVm P cfg).of_ok hrun
  obtain ⟨l, l', H, H', I'⟩ := Icore.create himg G hcfg
  have H₀ : b.hyp.ram.Pool l := H.frame rfl fun _ _ _ _ => rfl
  obtain ⟨l₀, H₁, hhigh, _⟩ := Icore.pool
  obtain rfl := H.unique H₁
  obtain ⟨l₁, M⟩ := G.table.placed hcfg H (himg.highPages hhigh)
  have hsub : ∀ p ∈ l', p ∈ l := fun p hp => M.free p (H'.unique M.pool ▸ hp)
  -- what was in use is as before
  have hold : ∀ j, (b.hyp.vcpus j).state ≠ .unused → s.vcpus j = b.hyp.vcpus j := by
    intro j hj
    have hlt : ¬ base ≤ j.val := fun h => hj ((hu j).mpr h)
    exact G.run.other_vcpus j (by omega)
  have hne : ∀ a, IsVm b.hyp a → a ≠ vm := by
    rintro a ⟨j, hj, rfl⟩ heq
    exact G.new (heq ▸ hlive j hj)
  have hvms : ∀ a, IsVm b.hyp a → s.vms a = b.hyp.vms a := fun a ha =>
    G.run.other_vms a (hne a ha)
  have hkeep : ∀ a, IsVm b.hyp a → ∀ p ∈ own a,
      Set.EqOn s.ram.mem b.hyp.ram.mem (block p pageSize) := fun a ha p hp =>
    Icore.create_frame himg G hcfg ha hp
  refine ⟨_, ⟨S', I', fun l'' H'' p hp => ?_, fun a ha p hp => ?_, fun a ha t ht => ?_,
    fun c hc => ?_⟩, ⟨fun a ha => ⟨?_, by rw [← hvms a ha]⟩,
    fun j hj => congrArg Vcpu.vm (hold j hj),
    fun a ha p t ht => hkeep a ha t ((I.isolated.held a ha).tables p t ht)⟩, fun a ha x hx => ?_⟩
  · exact I.free_le l H₀ p (hsub p (H''.unique H' ▸ hp))
  · by_cases hav : a = vm
    · rw [hav, Function.update_self] at hp
      exact I.free_le l H₀ p hp.1
    · rw [Function.update_of_ne hav] at hp
      exact I.own_le a ((G.run.isVm ha).resolve_left hav) p hp
  · by_cases hav : a = vm
    · subst hav
      exact G.table.noGic hcfg H (himg.highPages hhigh) t ht
    · have ha' : IsVm b.hyp a := (G.run.isVm ha).resolve_left hav
      rw [hvms a ha'] at ht
      refine I.noGic a ha' t ((tableAt_frame (fun p u hu => ?_) _ t).mp ht)
      exact hkeep a ha' u ((I.isolated.held a ha').tables p u hu)
  · obtain ⟨j, R⟩ := I.guest c hc
    have hj := hold j R.used
    have hm := hvms _ R.isVm
    refine ⟨j, ?_, ?_, ?_, R.ready⟩
    · exact (congrArg CoreRegs.tpidrEl2 (congrFun hcores c)).trans R.running
    · exact hj ▸ R.used
    · change (s.cores c).vttbrEl2 = (s.vms (s.vcpus j).vm).vttbr
      rw [hcores, hj, hm]
      exact R.table
  · obtain ⟨j, hj, rfl⟩ := ha
    exact ⟨j, hold j hj ▸ hj, by rw [hold j hj]⟩
  · rcases hx with ⟨p, hp, hx⟩ | hx
    · exact hkeep a ha p hp hx
    · exact M.port_frame H (himg.highPages hhigh) himg.port_le hx

/-- **Starting a core.** -/
theorem start {s : Hyp} (I : BoardInv himageEnd b own)
    (hrun : startVcpu (b.hyp.onCore core) = .ok () s) :
    BoardInv himageEnd
      { hyp := s
        el2 := Function.update b.el2 core (hyperSetup hyperVector (stage2MmuInit (b.el2 core)))
        entered := Function.update b.entered core true } own ∧
    b.Kept
      { hyp := s
        el2 := Function.update b.el2 core (hyperSetup hyperVector (stage2MmuInit (b.el2 core)))
        entered := Function.update b.entered core true } ∧
    s.ram.mem = b.hyp.ram.mem := by
  have hothers := wp_partial.mp startVcpu_others () s hrun
  obtain ⟨i, hi, _, hs⟩ := ok_of_wp startVcpu_ends hrun
  have hcore : i = core := Fin.ext hi.symm
  subst hcore
  have hmem : s.ram.mem = b.hyp.ram.mem := by rw [hs.ram]; rfl
  have hready : (b.hyp.vcpus i).state = .ready := hs.ready
  have hvcpus : s.vcpus = Function.update b.hyp.vcpus i { b.hyp.vcpus i with state := .running } :=
    hs.vcpus
  have hvm : ∀ j, (s.vcpus j).vm = (b.hyp.vcpus j).vm := by
    intro j
    by_cases hj : j = i
    · rw [hvcpus, hj, Function.update_self]
    · rw [hvcpus, Function.update_of_ne hj]
  have hused : ∀ j, (s.vcpus j).state = .unused ↔ (b.hyp.vcpus j).state = .unused := by
    intro j
    by_cases hj : j = i
    · rw [hvcpus, hj, Function.update_self, hready]
      exact ⟨fun h => (by cases h), fun h => (by cases h)⟩
    · rw [hvcpus, Function.update_of_ne hj]
  refine and_assoc.mp ⟨I.write hs.sysBlk (by rw [hs.ram]; rfl) hs.vms hvm hused
    (fun _ _ _ _ _ => ?_) (fun _ _ _ _ => ?_) fun c hc => ?_, hmem⟩
  · rw [hmem]
    exact Set.eqOn_refl _ _
  · rw [hmem]
    exact Set.eqOn_refl _ _
  by_cases hci : c = i
  · subst hci
    refine ⟨c, hs.tpidr, fun h => ?_, ?_, ?_⟩
    · have h' := (hused c).mp h
      rw [hready] at h'
      cases h'
    · change (s.cores c).vttbrEl2 = (s.vms (s.vcpus c).vm).vttbr
      rw [hvm, hs.vms]
      exact hs.vttbr
    · change (Function.update b.el2 c _ c).Ready
      rw [Function.update_self]
      exact ready_hyperSetup _ _
  · have hc' : b.entered c = true := by
      rw [← hc]
      exact (Function.update_of_ne hci _ _).symm
    obtain ⟨j, R⟩ := I.guest c hc'
    have hkept : s.cores c = b.hyp.cores c := hothers c fun h => hci (Fin.ext h)
    refine ⟨j, ?_, fun h => R.used ((hused j).mp h), ?_, ?_⟩
    · exact (congrArg CoreRegs.tpidrEl2 hkept).trans R.running
    · change (s.cores c).vttbrEl2 = (s.vms (s.vcpus j).vm).vttbr
      rw [hkept, hvm, hs.vms]
      exact R.table
    · change (Function.update b.el2 i _ c).Ready
      rw [Function.update_of_ne hci]
      exact R.ready

/-- **A trap** that writes to the heap alone. -/
theorem trap {hw : GicrHw} {isen : BitVec 32} {esr far hpfar : BitVec 64} {s : Hyp}
    (I : BoardInv himageEnd b own) (himg : IsImage himageEnd) (hcore : b.entered core = true)
    (hrun : el1SyncProc P (vgicHandlers P hw isen) esr far hpfar (b.hyp.onCore core) = .ok () s)
    (hmem : ∀ x ∉ block (poolStart himageEnd) configBlkSize, s.ram.mem x = b.hyp.ram.mem x) :
    BoardInv himageEnd { b with hyp := s } own ∧ b.Kept { b with hyp := s } := by
  obtain ⟨v, R⟩ := I.guest core hcore
  have T := ok_of_wp (el1SyncProc_trapped (I.slots.onCore core) R.running R.used esr far hpfar) hrun
  have hhigh : ∀ p, himageEnd ≤ p → Set.EqOn s.ram.mem b.hyp.ram.mem (block p pageSize) := by
    intro p hp x hx
    refine hmem x fun hheap => ?_
    have hle := himg.heap_le
    simp only [mem_block] at hx hheap
    omega
  refine I.write T.sysBlk T.pages T.vms T.vm T.used (fun a ha p t ht => ?_) (fun l H p hp => ?_)
    fun c hc => ?_
  · exact hhigh t (I.table_page ha ht).2.1
  · obtain ⟨l', H', hl, _⟩ := I.isolated.pool
    exact hhigh p (hl p (H.unique H' ▸ hp))
  · obtain ⟨j, Rj⟩ := I.guest c hc
    refine ⟨j, (T.tpidr c).trans Rj.running, fun h => Rj.used ((T.used j).mp h), ?_, Rj.ready⟩
    change (s.cores c).vttbrEl2 = (s.vms (s.vcpus j).vm).vttbr
    rw [T.vttbr, T.vm, T.vms]
    exact Rj.table

/-- **A computation** of a guest. -/
theorem compute {regs : Regs} (I : BoardInv himageEnd b own) :
    BoardInv himageEnd
      { b with hyp := b.hyp.setVcpu i { b.hyp.vcpus i with regs := regs } } own ∧
    b.Kept { b with hyp := b.hyp.setVcpu i { b.hyp.vcpus i with regs := regs } } := by
  have hsame : ∀ j, ((b.hyp.setVcpu i { b.hyp.vcpus i with regs := regs }).vcpus j).vm =
      (b.hyp.vcpus j).vm ∧ ((b.hyp.setVcpu i { b.hyp.vcpus i with regs := regs }).vcpus j).state =
      (b.hyp.vcpus j).state := by
    intro j
    by_cases hj : j = i
    · simp [Hyp.setVcpu, hj]
    · simp [Hyp.setVcpu, hj]
  refine I.write rfl rfl rfl (fun j => (hsame j).1) (fun j => by rw [(hsame j).2])
    (fun _ _ _ _ _ => Set.eqOn_refl _ _) (fun _ _ _ _ => Set.eqOn_refl _ _) fun c hc => ?_
  obtain ⟨j, R⟩ := I.guest c hc
  refine ⟨j, R.running, ?_, ?_, R.ready⟩
  · exact (hsame j).2 ▸ R.used
  · change (b.hyp.cores c).vttbrEl2 = _
    rw [(hsame j).1]
    exact R.table

/-- **A change of other registers.** -/
theorem gic {d : Gicd} {gicr : ℕ → BitVec 32} {cores : ℕ → CoreRegs}
    (I : BoardInv himageEnd b own) (hcores : ∀ c, (cores c).tpidrEl2 = (b.hyp.cores c).tpidrEl2 ∧
      (cores c).vttbrEl2 = (b.hyp.cores c).vttbrEl2) :
    BoardInv himageEnd
      { b with hyp := { b.hyp with gicd := d, gicr := gicr, cores := cores } } own ∧
    b.Kept { b with hyp := { b.hyp with gicd := d, gicr := gicr, cores := cores } } := by
  refine I.write rfl rfl rfl (fun _ => rfl) (fun _ => Iff.rfl)
    (fun _ _ _ _ _ => Set.eqOn_refl _ _) (fun _ _ _ _ => Set.eqOn_refl _ _) fun c hc => ?_
  obtain ⟨j, R⟩ := I.guest c hc
  exact ⟨j, (hcores c).1.trans R.running, R.used, (hcores c).2.trans R.table, R.ready⟩

/-- What a store changes: nothing, at the serial port, or a byte of a page of its own machine. -/
theorem stored_mem (I : BoardInv himageEnd b own) (R : b.Runs core i) {k : Vmsa.Access}
    {f : Vmsa.Found} (h : b.access core ipa k = .ok f) (val : Byte) : ∃ out a,
      translate b.hyp.ram.mem (b.hyp.vms (b.hyp.vcpus i).vm).vttbr ipa = some (out, a) ∧
      ∀ x, (b.stored f.pa val).hyp.ram.mem x ≠ b.hyp.ram.mem x →
        out ≠ pl011Base ∧ x = out + ipa % pageSize := by
  obtain ⟨out, a, htrans, hpa⟩ := I.access_ok R h
  refine ⟨out, a, htrans, fun x hx => ?_⟩
  rw [Board.stored] at hx
  by_cases hport : pl011Base ≤ f.pa ∧ f.pa < pl011Base + pageSize
  · rw [if_pos hport] at hx
    exact absurd rfl hx
  rw [if_neg hport] at hx
  have hlt := Nat.mod_lt ipa (show 0 < pageSize by decide)
  refine ⟨fun hout => hport ?_, by_contra fun hne => hx ?_⟩
  · rw [hpa, hout]
    omega
  · exact Function.update_of_ne (hpa ▸ hne) _ _

/-- **A store.** -/
theorem store {val : Byte} {f : Vmsa.Found} (I : BoardInv himageEnd b own)
    (himg : IsImage himageEnd) (hcore : b.entered core = true)
    (h : b.access core ipa .write = .ok f) :
    BoardInv himageEnd (b.stored f.pa val) own ∧ b.Kept (b.stored f.pa val) := by
  obtain ⟨i, R⟩ := I.guest core hcore
  obtain ⟨out, a, htrans, hmem⟩ := I.stored_mem R h val
  have hpage := translate_isPage htrans
  have hkeep : ∀ p, IsPage p → p ≠ out →
      Set.EqOn (b.stored f.pa val).hyp.ram.mem b.hyp.ram.mem (block p pageSize) := by
    intro p hp hne x hx
    by_contra hchange
    obtain ⟨_, rfl⟩ := hmem x hchange
    have hlt := Nat.mod_lt ipa (show 0 < pageSize by decide)
    refine hne (page_disjoint hp.aligned hpage.aligned hx (mem_block.mpr ?_))
    omega
  -- only memory changes
  have hsame : (b.stored f.pa val).hyp.sysBlk = b.hyp.sysBlk ∧
      (b.stored f.pa val).hyp.ram.pages = b.hyp.ram.pages ∧
      (b.stored f.pa val).hyp.vms = b.hyp.vms ∧ (b.stored f.pa val).hyp.vcpus = b.hyp.vcpus ∧
      (b.stored f.pa val).hyp.cores = b.hyp.cores ∧ (b.stored f.pa val).el2 = b.el2 ∧
      (b.stored f.pa val).entered = b.entered := by
    rw [Board.stored]
    split <;> exact ⟨rfl, rfl, rfl, rfl, rfl, rfl, rfl⟩
  obtain ⟨hpool, hpages, hvms, hvcpus, hcores, hel2, hentered⟩ := hsame
  refine I.write hpool hpages hvms (fun j => by rw [hvcpus]) (fun j => by rw [hvcpus])
    (fun vm hvm p t ht => ?_) (fun l H p hp => ?_) fun c hc => ?_
  · exact hkeep t (I.table_page hvm ht).1 (I.out_no_table himg R.isVm htrans hvm ht)
  · refine hkeep p (H.page p hp) ?_
    rintro rfl
    exact I.out_not_free himg R.isVm htrans H hp
  · rw [hentered] at hc
    obtain ⟨j, Rj⟩ := I.guest c hc
    refine ⟨j, ?_, ?_, ?_, ?_⟩
    · rw [hcores]
      exact Rj.running
    · rw [hvcpus]
      exact Rj.used
    · rw [hcores, hvcpus, hvms]
      exact Rj.table
    · rw [hel2]
      exact Rj.ready

end BoardInv

end inv

/-! ## Runs -/

section runs
variable {P : Platform} {himageEnd : ℕ} {hyperVector : BitVec 64} {b₀ b b' : Board}
  {own : ℕ → Set ℕ} {core c : Fin ncpu} {trace : List BoardMove} {vm : ℕ}

/-- After boot. -/
theorem BoardBooted.inv (himg : IsImage himageEnd) (h : BoardBooted himageEnd b) :
    BoardInv himageEnd b fun _ => ∅ := by
  obtain ⟨hboot, hentered⟩ := h
  have hnone : ∀ {Q : Prop} vm, IsVm b.hyp vm → Q := by
    rintro Q vm ⟨i, hi, _⟩
    exact absurd (((hboot.slots himg).2 i).mpr (Nat.zero_le _)) hi
  refine ⟨(hboot.slots himg).1, hboot.isolated himg, fun l H p hp => ?_, fun vm h => hnone vm h,
    fun vm h => hnone vm h, fun c hc => ?_⟩
  · rw [H.unique (hboot.pool himg)] at hp
    obtain ⟨i, hi, rfl⟩ := mem_initPages.mp hp
    have hle := himg.le
    simp only [pageSize, phyEnd] at *
    omega
  · rw [hentered c] at hc
    cases hc

/-- The guest on the core `core` is one of the machine `vm`. -/
def Board.Of (b : Board) (core : Fin ncpu) (vm : ℕ) : Prop :=
  ∃ i, (b.hyp.cores core).tpidrEl2 = some i ∧ (b.hyp.vcpus i).vm = vm

/-- A store of a machine's own. -/
def BoardMove.StoresFor (mv : BoardMove) (vm : ℕ) : Prop :=
  (∃ ipa val, mv.event = .store ipa val) ∧ mv.pre.Of mv.core vm

/-- What the machine `vm` reads at `ipa`. -/
def Board.byteOf (b : Board) (vm ipa : ℕ) : Option Byte :=
  guestByte b.hyp.ram.mem (b.hyp.vms vm).vttbr ipa

/-- **One step** keeps the invariant and the machines that are there, and what they read in their
memory too unless they store. -/
theorem BoardStep.keeps {ev : BoardEvent} (himg : IsImage himageEnd)
    (h : BoardStep P himageEnd hyperVector core ev b b') (I : BoardInv himageEnd b own) :
    ∃ own', BoardInv himageEnd b' own' ∧ b.Kept b' ∧ ∀ vm, IsVm b.hyp vm →
      (BoardMove.mk b core ev).StoresFor vm ∨ ∀ ipa, b'.byteOf vm ipa = b.byteOf vm ipa := by
  -- neither tables nor pages are written
  have hbytes : ∀ {b' : Board}, b.Kept b' → ∀ {vm}, IsVm b.hyp vm →
      (∀ x, (∃ p ∈ own vm, x ∈ block p pageSize) ∨ x ∈ block pl011Base pageSize →
        b'.hyp.ram.mem x = b.hyp.ram.mem x) →
      ∀ ipa, b'.byteOf vm ipa = b.byteOf vm ipa := by
    intro b' hkept vm hvm hmem ipa
    rw [Board.byteOf, Board.byteOf, (hkept.machine vm hvm).2]
    refine guestByte_frame (fun p t ht x hx => hmem x (Or.inl ⟨t, ?_, hx⟩)) fun out a hout => ?_
    · exact (I.isolated.held vm hvm).tables p t ht
    · have hin : out + ipa % pageSize ∈ block out pageSize := by
        have hlt := Nat.mod_lt ipa (show 0 < pageSize by decide)
        exact mem_block.mpr (by omega)
      refine hmem _ ?_
      rcases I.out_high hvm hout with rfl | ⟨hown, _, _⟩
      · exact Or.inr hin
      · exact Or.inl ⟨out, hown, hin⟩
  cases h with
  | create hcfg hrun =>
      obtain ⟨own', I', hkept, hmem⟩ := I.create himg hcfg hrun
      exact ⟨own', I', hkept, fun vm hvm => Or.inr (hbytes hkept hvm (hmem vm hvm))⟩
  | start hrun =>
      obtain ⟨I', hkept, hmem⟩ := I.start hrun
      exact ⟨own, I', hkept, fun vm hvm => Or.inr (hbytes hkept hvm fun x _ => congrFun hmem x)⟩
  | trap hcore hrun hmem _ =>
      obtain ⟨I', hkept⟩ := I.trap himg hcore hrun hmem
      refine ⟨own, I', hkept, fun vm hvm => Or.inr (hbytes hkept hvm fun x hx => hmem x ?_)⟩
      -- the heap is behind the serial port and in front of the pages
      intro hheap
      have hport := himg.port_le
      have hle := himg.heap_le
      rcases hx with ⟨p, hp, hx⟩ | hx
      · have hhigh := (I.isolated.page vm hvm p hp).2
        simp only [mem_block] at hx hheap
        omega
      · simp only [mem_block] at hx hheap
        omega
  | compute hcore hrunning =>
      obtain ⟨I', hkept⟩ := I.compute
      exact ⟨own, I', hkept, fun vm hvm => Or.inr (hbytes hkept hvm fun _ _ => rfl)⟩
  | gic hcores =>
      obtain ⟨I', hkept⟩ := I.gic hcores
      exact ⟨own, I', hkept, fun vm hvm => Or.inr (hbytes hkept hvm fun _ _ => rfl)⟩
  | @store _ ipa val f hcore hok =>
      obtain ⟨i, R⟩ := I.guest core hcore
      obtain ⟨I', hkept⟩ := I.store himg hcore hok
      obtain ⟨out, a, htrans, hmem⟩ := I.stored_mem R hok val
      refine ⟨own, I', hkept, fun vm hvm => ?_⟩
      by_cases hsame : (b.hyp.vcpus i).vm = vm
      · exact Or.inl ⟨⟨ipa, val, rfl⟩, i, R.running, hsame⟩
      refine Or.inr (hbytes hkept hvm fun x hx => ?_)
      by_contra hne
      obtain ⟨hport, rfl⟩ := hmem x hne
      have hlt := Nat.mod_lt ipa (show 0 < pageSize by decide)
      have hin : out + ipa % pageSize ∈ block out pageSize := mem_block.mpr (by omega)
      have halign := (translate_isPage htrans).aligned
      rcases hx with ⟨p, hp, hx⟩ | hx
      · have hpage := (I.isolated.page vm hvm p hp).1
        have heq := page_disjoint hpage.aligned halign hx hin
        rcases I.out_high R.isVm htrans with h | ⟨hown, _, _⟩
        · exact hport h
        · exact Set.disjoint_left.mp (I.isolated.apart _ vm R.isVm hvm hsame) hown (heq ▸ hp)
      · exact hport (page_disjoint (by decide) halign hx hin).symm

/-- **Every state of a run.** -/
theorem BoardRun.inv (himg : IsImage himageEnd) (hboot : BoardBooted himageEnd b₀)
    (hrun : BoardRun P himageEnd hyperVector b₀ trace b) : ∃ own, BoardInv himageEnd b own := by
  induction hrun with
  | start => exact ⟨_, hboot.inv himg⟩
  | step _ hstep ih =>
      obtain ⟨own, I⟩ := ih
      obtain ⟨own', I', _⟩ := hstep.keeps himg I
      exact ⟨own', I'⟩

/-- **From a state of a run on**, a machine reads the same until it stores. -/
theorem BoardRun.keeps (himg : IsImage himageEnd) (I : BoardInv himageEnd b own)
    (hvm : IsVm b.hyp vm) (hrun : BoardRun P himageEnd hyperVector b trace b')
    (hquiet : ∀ mv ∈ trace, ¬ mv.StoresFor vm) :
    ∃ own', BoardInv himageEnd b' own' ∧ IsVm b'.hyp vm ∧
      ∀ ipa, b'.byteOf vm ipa = b.byteOf vm ipa := by
  induction hrun with
  | start => exact ⟨own, I, hvm, fun _ => rfl⟩
  | step _ hstep ih =>
      obtain ⟨own₁, I₁, hvm₁, hsame⟩ := ih fun mv hmv => hquiet mv (List.mem_cons_of_mem _ hmv)
      obtain ⟨own₂, I₂, hkept, hstored⟩ := hstep.keeps himg I₁
      have hquiet₁ := hquiet _ List.mem_cons_self
      refine ⟨own₂, I₂, (hkept.machine vm hvm₁).1, fun ipa => ?_⟩
      exact ((hstored vm hvm₁).resolve_left hquiet₁ ipa).trans (hsame ipa)

end runs

/-! ## Two guests on the first two cores -/

section witness
variable {P : Platform} {himageEnd : ℕ} {hyperVector : BitVec 64} {b : Board} {core : Fin ncpu}

/-- A virtual CPU that is ready can be started on its core. -/
theorem exists_start (hready : (b.hyp.vcpus core).state = .ready)
    (hvm : (b.hyp.vcpus core).vm ≠ 0) : ∃ b', BoardStep P himageEnd hyperVector core .start b b' ∧
      Started (b.hyp.onCore core) core b'.hyp ∧
      b'.entered = Function.update b.entered core true ∧
      ∀ c ≠ core, b'.hyp.cores c = b.hyp.cores c := by
  have hstart : wp startVcpu (fun _ t => Started (b.hyp.onCore core) core t ∧
      ∀ c, c ≠ core.val → t.cores c = b.hyp.cores c) (fun _ _ => False) (b.hyp.onCore core) :=
    wp_total (wp_startVcpu rfl hready hvm fun _ h => h) startVcpu_others
  obtain ⟨_, t, ht, hs, hothers⟩ := exists_ok_of_wp hstart
  exact ⟨_, .start ht, hs, rfl, fun c hc => hothers c fun h => hc (Fin.ext h)⟩

/-- The guests of the machines `a` and `vm` are on the first two cores, and the second one finds
the page `out` at its entry. -/
structure TwoEntered (b : Board) (a vm out : ℕ) : Prop where
  first : b.entered 0 = true ∧ (b.hyp.cores 0).tpidrEl2 = some 0 ∧ (b.hyp.vcpus 0).vm = a
  second : b.entered 1 = true ∧ (b.hyp.cores 1).tpidrEl2 = some 1 ∧ (b.hyp.vcpus 1).vm = vm
  used : (b.hyp.vcpus 0).state ≠ .unused ∧ (b.hyp.vcpus 1).state ≠ .unused
  ne : a ≠ vm
  behind : bootEnd ≤ out
  entry : translate b.hyp.ram.mem (b.hyp.vms vm).vttbr smallGuest.entryAddr =
    some (out, s2pteNormal ||| s2pteRw ||| pteAf ||| pteV)

/-- A run that makes two small guests, starts the first core and then the second one. -/
theorem exists_two_entered (P : Platform) (hyperVector : BitVec 64) :
    ∃ b₀ trace b₁ b a vm out, BoardBooted bootEnd b₀ ∧
      BoardRun P bootEnd hyperVector b₀ trace b₁ ∧ (∀ mv ∈ trace, mv.event = .start → mv.core = 0) ∧
      BoardStep P bootEnd hyperVector 1 .start b₁ b ∧ TwoEntered b a vm out := by
  obtain ⟨s₀, s₁, s₂, a, vm, T⟩ := exists_two_guests P
  obtain ⟨out, hbehind, hentry⟩ := T.entry
  let el2 : Fin ncpu → El2Regs := fun _ => ⟨0, 0, 0, 0⟩
  have hvm : vm ≠ 0 := by
    obtain ⟨_, _, G, _⟩ := T.made
    exact G.ne_zero
  -- the machines are made
  have hmade : ∃ trace, BoardBooted bootEnd ⟨s₀, el2, fun _ => false⟩ ∧
      BoardRun P bootEnd hyperVector ⟨s₀, el2, fun _ => false⟩ trace ⟨s₂, el2, fun _ => false⟩ ∧
      ∀ mv ∈ trace, mv.event = .create smallGuest := by
    cases T.run with
    | step hprev hstep₂ =>
        cases hprev with
        | step hprev hstep₁ =>
            cases hprev with
            | boot hboot =>
                cases hstep₁ with
                | create hrun₁ =>
                    cases hstep₂ with
                    | create hrun₂ =>
                        refine ⟨_, ⟨hboot, fun _ => rfl⟩, .step (.step .start
                          (.create smallGuest_placed hrun₁)) (.create smallGuest_placed hrun₂), ?_⟩
                        simp
  obtain ⟨trace, hboot, hrun, hcreates⟩ := hmade
  -- the first core is started, and its virtual CPU keeps its machine
  obtain ⟨b₁, hstep₁, S₁, hentered₁, hothers₁⟩ := @exists_start P bootEnd hyperVector
    ⟨s₂, el2, fun _ => false⟩ 0 T.first.2 (T.first.1.trans_ne T.ne_zero)
  have hvcpu₁ : b₁.hyp.vcpus 1 = s₂.vcpus 1 := by
    rw [S₁.vcpus, Function.update_of_ne (by decide)]
    rfl
  obtain ⟨b₂, hstep₂, S₂, hentered₂, hothers₂⟩ := @exists_start P bootEnd hyperVector b₁ 1
    (hvcpu₁ ▸ T.second.2) (hvcpu₁ ▸ T.second.1.trans_ne hvm)
  have hzero : b₂.hyp.vcpus 0 = { s₂.vcpus 0 with state := .running } := by
    rw [S₂.vcpus, Function.update_of_ne (by decide)]
    change b₁.hyp.vcpus 0 = _
    rw [S₁.vcpus, Function.update_self]
    rfl
  have hone : b₂.hyp.vcpus 1 = { s₂.vcpus 1 with state := .running } := by
    rw [S₂.vcpus, Function.update_self, ← hvcpu₁]
    rfl
  refine ⟨_, _, b₁, b₂, a, vm, out, hboot, hrun.step hstep₁, fun mv hmv hev => ?_, hstep₂, ?_⟩
  · rcases List.mem_cons.mp hmv with rfl | hmv
    · rfl
    · rw [hcreates mv hmv] at hev
      cases hev
  constructor
  case first =>
    refine ⟨?_, ?_, by rw [hzero]; exact T.first.1⟩
    · rw [hentered₂, hentered₁]
      rfl
    · exact (congrArg CoreRegs.tpidrEl2 (hothers₂ 0 (by decide))).trans S₁.tpidr
  case second =>
    refine ⟨?_, S₂.tpidr, by rw [hone]; exact T.second.1⟩
    rw [hentered₂]
    rfl
  case used =>
    rw [hzero, hone]
    exact ⟨by simp, by simp⟩
  case ne => exact T.ne
  case behind => exact hbehind
  case entry =>
    rw [S₂.ram, S₂.vms]
    change translate b₁.hyp.ram.mem (b₁.hyp.vms vm).vttbr _ = _
    rw [S₁.ram, S₁.vms]
    exact hentry

namespace TwoEntered

variable {a vm out : ℕ} {own : ℕ → Set ℕ}

theorem isVm (T : TwoEntered b a vm out) : IsVm b.hyp a ∧ IsVm b.hyp vm :=
  ⟨⟨0, T.used.1, T.first.2.2⟩, 1, T.used.2, T.second.2.2⟩

/-- The second core runs a guest of its machine. -/
theorem runs (T : TwoEntered b a vm out) (I : BoardInv himageEnd b own) :
    ∃ i, b.Runs 1 i ∧ (b.hyp.vcpus i).vm = vm := by
  obtain ⟨i, R⟩ := I.guest 1 T.second.1
  obtain rfl : i = 1 := Option.some_inj.mp (R.running.symm.trans T.second.2.1)
  exact ⟨1, R, T.second.2.2⟩

/-- Its entry may be read and written. -/
theorem access (T : TwoEntered b a vm out) (I : BoardInv himageEnd b own) {k : Vmsa.Access}
    (hk : Vmsa.permits (s2pteNormal ||| s2pteRw ||| pteAf ||| pteV) k) :
    b.access 1 smallGuest.entryAddr k =
      .ok ⟨out, s2pteNormal ||| s2pteRw ||| pteAf ||| pteV⟩ := by
  obtain ⟨i, R, hvm⟩ := T.runs I
  rw [I.access_eq R, if_neg (by decide), hvm, T.entry]
  exact if_pos hk

end TwoEntered

end witness

/-! ## What guests can do -/

section guests
variable {P : Platform} {himageEnd : ℕ} {hyperVector : BitVec 64} {b₀ b b' : Board}
  {c : Fin ncpu} {trace : List BoardMove} {vm : ℕ}

/-- **What a core finds.**  In every state of every run a core that has entered a guest finds, for
every address and every kind of access, what the tables of its machine say: the page and the offset
in it if the page allows the access, and a fault otherwise, at the level of the missing table. -/
theorem board_walks (himg : IsImage himageEnd) (hboot : BoardBooted himageEnd b₀)
    (hrun : BoardRun P himageEnd hyperVector b₀ trace b) (hc : b.entered c = true) :
    ∃ i, b.Runs c i ∧ ∀ ipa k, b.access c ipa k =
      if 2 ^ 44 ≤ ipa then .error (.translation 0)
      else match translate b.hyp.ram.mem (b.hyp.vms (b.hyp.vcpus i).vm).vttbr ipa with
        | none => .error (.translation (3 - missing b.hyp.ram.mem ipa [0, 1, 2]
            (b.hyp.vms (b.hyp.vcpus i).vm).vttbr))
        | some (out, attr) =>
            if Vmsa.permits attr k then .ok ⟨out + ipa % pageSize, attr⟩
            else .error (.permission 3) := by
  obtain ⟨own, I⟩ := hrun.inv himg hboot
  obtain ⟨i, R⟩ := I.guest c hc
  exact ⟨i, R, I.access_eq R⟩

/-- Two guests: the second one may write to the page at its entry. -/
theorem board_walks_entry : ∃ b₀ trace b out, BoardBooted bootEnd b₀ ∧
    BoardRun obedient bootEnd 0 b₀ trace b ∧ bootEnd ≤ out ∧
    b.access 1 smallGuest.entryAddr .write =
      .ok ⟨out, s2pteNormal ||| s2pteRw ||| pteAf ||| pteV⟩ := by
  obtain ⟨b₀, _, _, b, _, vm, out, hboot, hmade, _, hstart, T⟩ := exists_two_entered obedient 0
  have hrun := hmade.step hstart
  obtain ⟨i, R, hwalk⟩ := board_walks isImage_bootEnd hboot hrun T.second.1
  obtain rfl : i = 1 := Option.some_inj.mp (R.running.symm.trans T.second.2.1)
  refine ⟨b₀, _, b, out, hboot, hrun, T.behind, ?_⟩
  rw [hwalk smallGuest.entryAddr .write, if_neg (by decide), T.second.2.2, T.entry]
  exact if_pos (by decide)

/-- A page that is of the machine `vm` alone: it is in memory behind the image, not free and no
table, and every access that reaches it is one of the machine's. -/
structure Board.Private (b : Board) (himageEnd vm page : ℕ) : Prop where
  isPage : IsPage page
  image : himageEnd ≤ page
  memory : page + pageSize ≤ phyEnd
  not_free : ∀ l, b.hyp.ram.Pool l → page ∉ l
  not_table : ∀ vm' p t, IsVm b.hyp vm' → TableAt b.hyp.ram.mem (b.hyp.vms vm').vttbr p t → t ≠ page
  alone : ∀ c ipa k f, b.entered c = true → b.access c ipa k = .ok f → f.pa ∈ block page pageSize →
    b.Of c vm

/-- **Where accesses go.**  Whatever a core that has entered a guest accesses, it is the serial port
or a page of its own machine alone. -/
theorem board_access_private (himg : IsImage himageEnd) (hboot : BoardBooted himageEnd b₀)
    (hrun : BoardRun P himageEnd hyperVector b₀ trace b) (hc : b.entered c = true) {ipa : ℕ}
    {k : Vmsa.Access} {f : Vmsa.Found} (h : b.access c ipa k = .ok f) :
    ∃ vm, b.Of c vm ∧ (f.pa ∈ block pl011Base pageSize ∨
      ∃ page, f.pa ∈ block page pageSize ∧ b.Private himageEnd vm page) := by
  obtain ⟨own, I⟩ := hrun.inv himg hboot
  obtain ⟨i, R⟩ := I.guest c hc
  obtain ⟨out, a, htrans, hpa⟩ := I.access_ok R h
  have hin : ∀ {x out : ℕ}, out + x % pageSize ∈ block out pageSize := by
    intro x out
    have hlt := Nat.mod_lt x (show 0 < pageSize by decide)
    exact mem_block.mpr (by omega)
  refine ⟨_, ⟨i, R.running, rfl⟩, ?_⟩
  rcases I.out_high R.isVm htrans with rfl | ⟨hown, hhigh, hle⟩
  · exact Or.inl (hpa ▸ hin)
  refine Or.inr ⟨out, hpa ▸ hin, translate_isPage htrans, hhigh, hle,
    fun l H => I.out_not_free himg R.isVm htrans H,
    fun vm' p t hvm' ht => I.out_no_table himg R.isVm htrans hvm' ht,
    fun c' ipa' k' f' hc' h' hin' => ?_⟩
  obtain ⟨j, R'⟩ := I.guest c' hc'
  obtain ⟨out', a', htrans', hpa'⟩ := I.access_ok R' h'
  have heq : out' = out := page_disjoint (translate_isPage htrans').aligned
    (translate_isPage htrans).aligned (hpa' ▸ hin) hin'
  subst heq
  have hport := himg.port_le
  have hheap := himg.heap_le
  simp only [pageSize] at hport
  exact ⟨j, R'.running, (I.out_apart R.isVm htrans R'.isVm htrans').resolve_left (by omega)⟩

/-- Two guests: the page that the second one writes to at its entry is its machine's alone. -/
theorem board_access_private_entry : ∃ b₀ trace b a vm f, BoardBooted bootEnd b₀ ∧
    BoardRun obedient bootEnd 0 b₀ trace b ∧ b.Of 0 a ∧ b.Of 1 vm ∧ a ≠ vm ∧
    b.access 1 smallGuest.entryAddr .write = .ok f ∧
    ∃ page, f.pa ∈ block page pageSize ∧ b.Private bootEnd vm page := by
  obtain ⟨b₀, _, _, b, a, vm, out, hboot, hmade, _, hstart, T⟩ := exists_two_entered obedient 0
  have hrun := hmade.step hstart
  obtain ⟨own, I⟩ := hrun.inv isImage_bootEnd hboot
  have hof : b.Of 1 vm := ⟨1, T.second.2⟩
  have haccess := T.access I (k := .write) (by decide)
  refine ⟨b₀, _, b, a, vm, _, hboot, hrun, ⟨0, T.first.2⟩, hof, T.ne, haccess, ?_⟩
  obtain ⟨vm', ⟨i, hi, rfl⟩, hprivate⟩ :=
    board_access_private isImage_bootEnd hboot hrun T.second.1 haccess
  obtain rfl : i = 1 := Option.some_inj.mp (hi.symm.trans T.second.2.1)
  rw [T.second.2.2] at hprivate
  refine hprivate.resolve_left fun hport => ?_
  -- the page is behind the image
  have hbehind := T.behind
  simp only [mem_block, pl011Base, pageSize, bootEnd] at hport hbehind
  omega

/-- **Who changes memory.**  From any state of a run on, whatever machines are made, cores started,
calls and accesses trapped and bytes stored by other machines, what a machine reads at any address
stays the same until one of its own virtual CPUs stores. -/
theorem board_memory_kept (himg : IsImage himageEnd) (hboot : BoardBooted himageEnd b₀)
    (hrun : BoardRun P himageEnd hyperVector b₀ trace b) (hvm : IsVm b.hyp vm)
    {later : List BoardMove} (hlater : BoardRun P himageEnd hyperVector b later b')
    (hquiet : ∀ mv ∈ later, ¬ mv.StoresFor vm) (ipa : ℕ) :
    b'.byteOf vm ipa = b.byteOf vm ipa := by
  obtain ⟨own, I⟩ := hrun.inv himg hboot
  obtain ⟨_, _, _, hsame⟩ := hlater.keeps himg I hvm hquiet
  exact hsame ipa

/-- Two guests: the second one stores to its memory, and the first one's is as before. -/
theorem board_memory_kept_store : ∃ b₀ trace b a vm later b', BoardBooted bootEnd b₀ ∧
    BoardRun obedient bootEnd 0 b₀ trace b ∧ IsVm b.hyp a ∧ IsVm b.hyp vm ∧
    BoardRun obedient bootEnd 0 b later b' ∧
    b'.byteOf vm smallGuest.entryAddr ≠ b.byteOf vm smallGuest.entryAddr ∧
    ∀ ipa, b'.byteOf a ipa = b.byteOf a ipa := by
  obtain ⟨b₀, _, _, b, a, vm, out, hboot, hmade, _, hstart, T⟩ := exists_two_entered obedient 0
  have hrun := hmade.step hstart
  obtain ⟨own, I⟩ := hrun.inv isImage_bootEnd hboot
  have haccess := T.access I (k := .write) (by decide)
  -- another byte than what is there
  obtain ⟨val, hval⟩ : ∃ val, val ≠ b.hyp.ram.mem out :=
    ⟨b.hyp.ram.mem out + 1, by bv_omega⟩
  have hstore : BoardStep obedient bootEnd 0 1 (.store smallGuest.entryAddr val) b
      (b.stored out val) := .store T.second.1 haccess
  have hlater := BoardRun.start.step hstore
  refine ⟨b₀, _, b, a, vm, _, _, hboot, hrun, T.isVm.1, T.isVm.2, hlater, ?_, ?_⟩
  · obtain ⟨I', hkept⟩ := I.store isImage_bootEnd T.second.1 haccess
    have hbefore : b.byteOf vm smallGuest.entryAddr = some (b.hyp.ram.mem out) :=
      guestByte_of_translate T.entry
    have htrans : translate (b.stored out val).hyp.ram.mem ((b.stored out val).hyp.vms vm).vttbr
        smallGuest.entryAddr = some (out, s2pteNormal ||| s2pteRw ||| pteAf ||| pteV) := by
      rw [(hkept.machine vm T.isVm.2).2, ← T.entry, translate, translate,
        leafEntry_frame (hkept.tables vm T.isVm.2)]
    have hafter : (b.stored out val).byteOf vm smallGuest.entryAddr = some val := by
      rw [Board.byteOf, guestByte_of_translate htrans, Board.stored, if_neg ?_]
      · exact congrArg some (Function.update_self ..)
      · have hbehind := T.behind
        simp only [pl011Base, pageSize, bootEnd] at hbehind ⊢
        omega
    rw [hbefore, hafter]
    exact fun h => hval (Option.some_inj.mp h)
  · refine board_memory_kept isImage_bootEnd hboot hrun T.isVm.1 hlater fun mv hmv => ?_
    rw [List.mem_singleton.mp hmv]
    rintro ⟨_, i, hi, hvm⟩
    obtain rfl : i = 1 := Option.some_inj.mp (hi.symm.trans T.second.2.1)
    exact T.ne (hvm.symm.trans T.second.2.2)

/-- An address of the interrupt controller's block has the path of its first address. -/
theorem tablePath_of_inGicBlock {ipa : ℕ} (h : InGicBlock ipa) :
    tablePath ipa = tablePath gicdBase := by
  simp only [tablePath, List.cons.injEq, and_true, pindex_eq, InGicBlock, gicdBase] at h ⊢
  norm_num only at h ⊢
  omega

/-- **What is never reached.**  In every state of every run each access of a guest to the two
megabytes with the windows of the interrupt controller is a translation fault. -/
theorem board_gic_faults (himg : IsImage himageEnd) (hboot : BoardBooted himageEnd b₀)
    (hrun : BoardRun P himageEnd hyperVector b₀ trace b) (hc : b.entered c = true) {ipa : ℕ}
    (hgic : InGicBlock ipa) (k : Vmsa.Access) :
    ∃ level, b.access c ipa k = .error (.translation level) := by
  obtain ⟨own, I⟩ := hrun.inv himg hboot
  obtain ⟨i, R⟩ := I.guest c hc
  have hnone : Radix.follow (child b.hyp.ram.mem) (b.hyp.vms (b.hyp.vcpus i).vm).vttbr
      (tablePath ipa) = none := by
    rw [Option.eq_none_iff_forall_ne_some, tablePath_of_inGicBlock hgic]
    intro t ht
    exact I.noGic _ R.isVm t ((tableAt_tablePath _ _ gicdBase t).mpr ht)
  have htrans : translate b.hyp.ram.mem (b.hyp.vms (b.hyp.vcpus i).vm).vttbr ipa = none := by
    rw [translate, leafEntry_of_none hnone]
    rfl
  rw [I.access_eq R, htrans]
  simp only
  split <;> exact ⟨_, rfl⟩

/-- Two guests: the second one does not reach the distributor. -/
theorem board_gic_faults_gicd : ∃ b₀ trace b, BoardBooted bootEnd b₀ ∧
    BoardRun obedient bootEnd 0 b₀ trace b ∧ b.entered 1 = true ∧
    ∃ level, b.access 1 gicdBase .write = .error (.translation level) := by
  obtain ⟨b₀, _, _, b, _, _, _, hboot, hmade, _, hstart, T⟩ := exists_two_entered obedient 0
  have hrun := hmade.step hstart
  exact ⟨b₀, _, b, hboot, hrun, T.second.1,
    board_gic_faults isImage_bootEnd hboot hrun T.second.1 ⟨le_rfl, by decide⟩ .write⟩

end guests

end Xhyper
