import Xhyper.Wakeup

/-!
# Overlapping `CPU_ON` calls

`vpsci_cpu_on` reaches the virtual CPU it names in two stores, the address and the state, and
then calls the firmware.  Other virtual CPUs, and the same one again, make such calls in
between, and the core that the firmware started goes through `start_vcpu` at the same time.  It
reads the address last, in `switch_out`.

The firmware accepts one call for a core.  The address that the accepted call gave is the one
the core reads when nobody has stored another one over it by then: not before the firmware is
asked, and not while the core starts.

## Main definitions

* `CpuOns`, `CpuOnStep`, `CpuOnRun` — the calls and the starting cores, access by access.
* `AcceptsOnce` — what the firmware is relied on for.
* `Undisturbed`, `cpu_on_entry_agreement` — when the accepted call's address is entered.
-/

namespace Xhyper

open Memory Prog

/-! ## Calls and starting cores -/

/-- The next access of a call. -/
inductive CallStage
  /-- `target->regs.elr = entry_addr` -/
  | elr
  /-- `target->state = VCPU_READY` -/
  | ready
  /-- `smc_call` -/
  | smc
  deriving DecidableEq, Repr

/-- A virtual CPU's call under way: what it was given and the virtual CPU it found. -/
structure Call where
  stage : CallStage
  targetCpu : BitVec 64
  entryAddr : BitVec 64
  target : Fin ncpu

/-- Where a core is that `CPU_ON` starts. -/
inductive BootPc
  | off
  /-- `start_vcpu` looks at the state. -/
  | check
  /-- `switch_vcpu` -/
  | switch
  /-- `switch_out` loads the registers. -/
  | load
  /-- The virtual CPU entered its guest at this address. -/
  | entered (i : Fin ncpu) (addr : BitVec 64)
  /-- It stopped in `start_vcpu`. -/
  | stopped

/-- The core is between the firmware's answer and the load of the address. -/
def BootPc.Booting (b : BootPc) : Prop := b = .check ∨ b = .switch ∨ b = .load

/-- The hypervisor, the calls under way and the cores that start. -/
structure CpuOns where
  hyp : Hyp
  call : Fin ncpu → Option Call
  boot : Fin ncpu → BootPc
  /-- For each core, what the calls named that returned success: virtual CPU and address. -/
  won : Fin ncpu → List (Fin ncpu × BitVec 64)

/-- Whose turn it is. -/
inductive CpuOnEvent
  /-- A virtual CPU makes `CPU_ON`. -/
  | call (v : Fin ncpu) (targetCpu entryAddr : BitVec 64)
  /-- A virtual CPU's call goes on. -/
  | go (v : Fin ncpu)
  /-- A starting core goes on. -/
  | boot (c : Fin ncpu)

namespace CpuOns

/-- The call of `v` goes on. -/
def setCall (s : CpuOns) (v : Fin ncpu) (k : Option Call) : CpuOns :=
  { s with call := Function.update s.call v k }

/-- The core `c` goes on. -/
def setBoot (s : CpuOns) (c : Fin ncpu) (b : BootPc) : CpuOns :=
  { s with boot := Function.update s.boot c b }

/-- The same with another hypervisor. -/
def withHyp (s : CpuOns) (h : Hyp) : CpuOns := { s with hyp := h }

/-- A call for the core `c` returned success. -/
def win (s : CpuOns) (c i : Fin ncpu) (addr : BitVec 64) : CpuOns :=
  { s with won := Function.update s.won c ((i, addr) :: s.won c) }

/-- No call and no core is under way. -/
def start (h : Hyp) : CpuOns :=
  { hyp := h, call := fun _ => none, boot := fun _ => .off, won := fun _ => [] }

end CpuOns

/-- The store of the address. -/
def Hyp.storeElr (s : Hyp) (i : Fin ncpu) (entryAddr : BitVec 64) : Hyp :=
  s.setVcpu i { s.vcpus i with regs := { (s.vcpus i).regs with elr := entryAddr } }

/-- The store of the state. -/
def Hyp.storeReady (s : Hyp) (i : Fin ncpu) : Hyp :=
  s.setVcpu i { s.vcpus i with state := .ready }

/-- The call to the firmware. -/
def Hyp.askCpuOn (s : Hyp) (P : Platform) (targetCpu : BitVec 64) : Hyp :=
  { s with smcs := P.cpuOnSmc targetCpu :: s.smcs }

/-- One access.  A call whose number names no virtual CPU goes no further than the look at
`vm->vcpus`, and is left out. -/
inductive CpuOnStep (P : Platform) : CpuOns → CpuOnEvent → CpuOns → Prop
  | call {s : CpuOns} {v i : Fin ncpu} {t e : BitVec 64} : s.call v = none →
      (s.hyp.vcpus v).state ≠ .unused → Targets s.hyp v t i →
      CpuOnStep P s (.call v t e) (s.setCall v (some ⟨.elr, t, e, i⟩))
  | elr {s : CpuOns} {v i : Fin ncpu} {t e : BitVec 64} : s.call v = some ⟨.elr, t, e, i⟩ →
      CpuOnStep P s (.go v) ((s.withHyp (s.hyp.storeElr i e)).setCall v (some ⟨.ready, t, e, i⟩))
  | ready {s : CpuOns} {v i : Fin ncpu} {t e : BitVec 64} : s.call v = some ⟨.ready, t, e, i⟩ →
      CpuOnStep P s (.go v) ((s.withHyp (s.hyp.storeReady i)).setCall v (some ⟨.smc, t, e, i⟩))
  | accepted {s : CpuOns} {v i c : Fin ncpu} {t e : BitVec 64} : s.call v = some ⟨.smc, t, e, i⟩ →
      c.val = t.toNat → P.cpuOnAnswer s.hyp t = 0 →
      CpuOnStep P s (.go v)
        ((((s.withHyp (s.hyp.askCpuOn P t)).setCall v none).setBoot c .check).win c i e)
  | refused {s : CpuOns} {v i : Fin ncpu} {t e : BitVec 64} : s.call v = some ⟨.smc, t, e, i⟩ →
      P.cpuOnAnswer s.hyp t ≠ 0 →
      CpuOnStep P s (.go v) ((s.withHyp (s.hyp.askCpuOn P t)).setCall v none)
  | check {s : CpuOns} {c : Fin ncpu} : s.boot c = .check →
      CpuOnStep P s (.boot c)
        (s.setBoot c (if (s.hyp.vcpus c).state ≠ .ready then .stopped else .switch))
  | switch {s : CpuOns} {c : Fin ncpu} {h : Hyp} : s.boot c = .switch →
      switchVcpu c (s.hyp.onCore c) = .ok () h →
      CpuOnStep P s (.boot c) ((s.withHyp h).setBoot c .load)
  | stop {s : CpuOns} {c : Fin ncpu} {e : Fault} {h : Hyp} : s.boot c = .switch →
      switchVcpu c (s.hyp.onCore c) = .error e h →
      CpuOnStep P s (.boot c) ((s.withHyp h).setBoot c .stopped)
  | load {s : CpuOns} {c i : Fin ncpu} : s.boot c = .load →
      (s.hyp.cores c).tpidrEl2 = some i →
      CpuOnStep P s (.boot c) (s.setBoot c (.entered i (s.hyp.vcpus i).regs.elr))

/-- The steps from a state of the hypervisor, last one first, and the state they end in. -/
inductive CpuOnRun (P : Platform) (h : Hyp) : List (CpuOns × CpuOnEvent) → CpuOns → Prop
  | start : CpuOnRun P h [] (.start h)
  | step {trace : List (CpuOns × CpuOnEvent)} {s s' : CpuOns} {ev : CpuOnEvent} :
      CpuOnRun P h trace s → CpuOnStep P s ev s' → CpuOnRun P h ((s, ev) :: trace) s'

/-- The firmware accepts a call for a core that is off when it is the first one, and refuses
every other call. -/
structure AcceptsOnce (P : Platform) (off : BitVec 64 → Prop) : Prop where
  accepts_iff : ∀ (s : Hyp) (t : BitVec 64),
    P.cpuOnAnswer s t = 0 ↔ off t ∧ P.cpuOnSmc t ∉ s.smcs

/-! ## Agreement -/

/-- **The started cores agree with the accepted calls**: none stopped, and one that entered its
guest entered with the virtual CPU and at the address of the one call that returned success. -/
def CpuOns.Agrees (s : CpuOns) : Prop :=
  ∀ c, s.boot c ≠ .stopped ∧ ∀ i addr, s.boot c = .entered i addr → s.won c = [(i, addr)]

/-- **A step that disturbs no entry.**  While a core starts, no other address is stored for it,
and a call that the firmware accepts still finds its own address, at the place of the core. -/
structure Undisturbed (P : Platform) (s : CpuOns) (ev : CpuOnEvent) : Prop where
  elr : ∀ v t e i, ev = .go v → s.call v = some ⟨.elr, t, e, i⟩ → (s.boot i).Booting →
    ∀ w ∈ s.won i, w.2 = e
  smc : ∀ v t e i, ev = .go v → s.call v = some ⟨.smc, t, e, i⟩ → P.cpuOnAnswer s.hyp t = 0 →
    i.val = t.toNat ∧ (s.hyp.vcpus i).regs.elr = e

/-- **The invariant.**  A core that starts will read the accepted call's address and find its
virtual CPU ready. -/
structure CpuOns.Consistent (P : Platform) (heap : ℕ) (s : CpuOns) : Prop where
  slots : Slots heap s.hyp
  used : ∀ v k, s.call v = some k → (s.hyp.vcpus k.target).state ≠ .unused
  asked : ∀ c, s.boot c ≠ .off → ∃ t : BitVec 64, t.toNat = c.val ∧ P.cpuOnSmc t ∈ s.hyp.smcs
  none_won : ∀ c, s.boot c = .off → s.won c = []
  smc_ready : ∀ v t e i, s.call v = some ⟨.smc, t, e, i⟩ → s.boot i = .off →
    (s.hyp.vcpus i).state = .ready
  booting : ∀ c, (s.boot c).Booting → (s.hyp.vcpus c).state ≠ .unused ∧
    s.won c = [(c, (s.hyp.vcpus c).regs.elr)]
  check : ∀ c, s.boot c = .check → (s.hyp.vcpus c).state = .ready
  load : ∀ c : Fin ncpu, s.boot c = .load → (s.hyp.cores c).tpidrEl2 = some c
  agrees : s.Agrees

section accesses
variable (s : CpuOns) (h : Hyp) (v c i j : Fin ncpu) (k : Option Call) (b : BootPc)
  (addr : BitVec 64)

@[simp] theorem setCall_call :
    (s.setCall v k).call j = if j = v then k else s.call j := Function.update_apply ..
theorem setCall_self : (s.setCall v k).call v = k := Function.update_self ..
@[simp] theorem setCall_hyp : (s.setCall v k).hyp = s.hyp := rfl
@[simp] theorem setCall_boot : (s.setCall v k).boot = s.boot := rfl
@[simp] theorem setCall_won : (s.setCall v k).won = s.won := rfl
@[simp] theorem setBoot_boot :
    (s.setBoot c b).boot j = if j = c then b else s.boot j := Function.update_apply ..
@[simp] theorem setBoot_hyp : (s.setBoot c b).hyp = s.hyp := rfl
@[simp] theorem setBoot_call : (s.setBoot c b).call = s.call := rfl
@[simp] theorem setBoot_won : (s.setBoot c b).won = s.won := rfl
@[simp] theorem withHyp_hyp : (s.withHyp h).hyp = h := rfl
@[simp] theorem withHyp_call : (s.withHyp h).call = s.call := rfl
@[simp] theorem withHyp_boot : (s.withHyp h).boot = s.boot := rfl
@[simp] theorem withHyp_won : (s.withHyp h).won = s.won := rfl
@[simp] theorem win_won :
    (s.win c i addr).won j = if j = c then (i, addr) :: s.won c else s.won j :=
  Function.update_apply ..
@[simp] theorem win_hyp : (s.win c i addr).hyp = s.hyp := rfl
@[simp] theorem win_call : (s.win c i addr).call = s.call := rfl
@[simp] theorem win_boot : (s.win c i addr).boot = s.boot := rfl

@[simp] theorem storeElr_vcpus : (h.storeElr i addr).vcpus j =
    { h.vcpus j with regs := { (h.vcpus j).regs with
      elr := if j = i then addr else (h.vcpus j).regs.elr } } := by
  by_cases hj : j = i
  · rw [hj, if_pos rfl]
    exact Function.update_self ..
  · rw [if_neg hj]
    exact Function.update_of_ne hj ..

@[simp] theorem storeReady_vcpus : (h.storeReady i).vcpus j =
    { h.vcpus j with state := if j = i then .ready else (h.vcpus j).state } := by
  by_cases hj : j = i
  · rw [hj, if_pos rfl]
    exact Function.update_self ..
  · rw [if_neg hj]
    exact Function.update_of_ne hj ..

end accesses

/-! ## What one access preserves -/

section steps
variable {P : Platform} {heap : ℕ} {s : CpuOns} {v i c : Fin ncpu} {t e : BitVec 64}

namespace CpuOns.Consistent

theorem call (C : s.Consistent P heap) (hv : (s.hyp.vcpus v).state ≠ .unused)
    (hi : Targets s.hyp v t i) :
    (s.setCall v (some ⟨.elr, t, e, i⟩)).Consistent P heap := by
  have hused : (s.hyp.vcpus i).state ≠ .unused := by
    obtain ⟨_, _, _, _, _, hused⟩ := C.slots.target hv hi
    exact hused
  constructor
  case used =>
    intro v' k hk
    by_cases hv' : v' = v
    · simp only [setCall_call, if_pos hv', Option.some_inj] at hk
      exact hk ▸ hused
    · simp only [setCall_call, if_neg hv'] at hk
      exact C.used v' k hk
  case smc_ready =>
    intro v' t' e' i' hk hoff
    by_cases hv' : v' = v
    · simp [hv'] at hk
    · simp only [setCall_call, if_neg hv'] at hk
      exact C.smc_ready v' t' e' i' hk hoff
  exacts [C.slots, C.asked, C.none_won, C.booting, C.check, C.load, C.agrees]

/-- The address is stored: while the core starts it is the accepted one. -/
theorem elr (C : s.Consistent P heap) (hk : s.call v = some ⟨.elr, t, e, i⟩)
    (hwon : (s.boot i).Booting → ∀ w ∈ s.won i, w.2 = e) :
    ((s.withHyp (s.hyp.storeElr i e)).setCall v (some ⟨.ready, t, e, i⟩)).Consistent P heap := by
  have hslots : Slots heap (s.hyp.storeElr i e) :=
    C.slots.congr rfl rfl (fun j => by simp) fun j => by simp
  constructor
  case used =>
    intro v' k hk'
    by_cases hv' : v' = v
    · simp only [setCall_call, if_pos hv', Option.some_inj] at hk'
      subst hk'
      simpa using C.used v _ hk
    · simp only [setCall_call, if_neg hv'] at hk'
      simpa using C.used v' k hk'
  case smc_ready =>
    intro v' t' e' i' hk' hoff
    by_cases hv' : v' = v
    · simp [hv'] at hk'
    · simp only [setCall_call, if_neg hv'] at hk'
      simpa using C.smc_ready v' t' e' i' hk' hoff
  case booting =>
    intro c hc
    have hboot := C.booting c hc
    refine ⟨by simpa using hboot.1, ?_⟩
    by_cases hci : c = i
    · subst hci
      have hval : (s.hyp.vcpus c).regs.elr = e := by
        have hw := hwon hc (c, (s.hyp.vcpus c).regs.elr)
        exact hw (by rw [hboot.2]; exact List.mem_singleton_self _)
      simp [hboot.2, hval]
    · simpa [hci] using hboot.2
  case check =>
    intro c hc
    simpa using C.check c hc
  exacts [hslots, C.asked, C.none_won, C.load, C.agrees]

/-- The state is stored. -/
theorem ready (C : s.Consistent P heap) (hk : s.call v = some ⟨.ready, t, e, i⟩) :
    ((s.withHyp (s.hyp.storeReady i)).setCall v (some ⟨.smc, t, e, i⟩)).Consistent P heap := by
  have hused : (s.hyp.vcpus i).state ≠ .unused := C.used v _ hk
  have hsame : ∀ j, ((s.hyp.storeReady i).vcpus j).state = .unused ↔
      (s.hyp.vcpus j).state = .unused := by
    intro j
    by_cases hj : j = i
    · subst hj
      simpa using hused
    · simp [hj]
  have hslots : Slots heap (s.hyp.storeReady i) :=
    C.slots.congr rfl rfl (fun j => by simp) hsame
  constructor
  case used =>
    intro v' k hk'
    refine fun hun => ?_
    have hun' := (hsame _).mp hun
    by_cases hv' : v' = v
    · simp only [setCall_call, if_pos hv', Option.some_inj] at hk'
      subst hk'
      exact hused hun'
    · simp only [setCall_call, if_neg hv'] at hk'
      exact C.used v' k hk' hun'
  case smc_ready =>
    intro v' t' e' i' hk' hoff
    by_cases hi : i' = i
    · simp [hi]
    · by_cases hv' : v' = v
      · simp only [setCall_call, if_pos hv', Option.some_inj, Call.mk.injEq] at hk'
        exact absurd hk'.2.2.2.symm hi
      · simp only [setCall_call, if_neg hv'] at hk'
        simpa [hi] using C.smc_ready v' t' e' i' hk' hoff
  case booting =>
    intro c hc
    have hboot := C.booting c hc
    exact ⟨fun hun => hboot.1 ((hsame c).mp hun), by simpa using hboot.2⟩
  case check =>
    intro c hc
    have hready := C.check c hc
    by_cases hci : c = i
    · simp [hci]
    · simpa [hci] using hready
  exacts [hslots, C.asked, C.none_won, C.load, C.agrees]

/-- The firmware is asked, and the core does not start. -/
theorem asks (C : s.Consistent P heap) :
    ((s.withHyp (s.hyp.askCpuOn P t)).setCall v none).Consistent P heap := by
  have hslots : Slots heap (s.hyp.askCpuOn P t) :=
    C.slots.congr rfl rfl (fun _ => rfl) fun _ => Iff.rfl
  constructor
  case used =>
    intro v' k hk'
    by_cases hv' : v' = v
    · simp [hv'] at hk'
    · simp only [setCall_call, if_neg hv'] at hk'
      exact C.used v' k hk'
  case asked =>
    intro c hc
    obtain ⟨t', ht', hmem⟩ := C.asked c hc
    exact ⟨t', ht', List.mem_cons_of_mem _ hmem⟩
  case smc_ready =>
    intro v' t' e' i' hk' hoff
    by_cases hv' : v' = v
    · simp [hv'] at hk'
    · simp only [setCall_call, if_neg hv'] at hk'
      exact C.smc_ready v' t' e' i' hk' hoff
  exacts [hslots, C.none_won, C.booting, C.check, C.load, C.agrees]

/-- One core moves, and what is said of it holds at its new place. -/
theorem moves (C : s.Consistent P heap) {s' : CpuOns} (hhyp : s'.hyp = s.hyp)
    (hcall : s'.call = s.call) (hboot : ∀ d, d ≠ c → s'.boot d = s.boot d)
    (hwon : ∀ d, d ≠ c → s'.won d = s.won d) (hne : s'.boot c ≠ .off)
    (hasked : ∃ t : BitVec 64, t.toNat = c.val ∧ P.cpuOnSmc t ∈ s.hyp.smcs)
    (hbooting : (s'.boot c).Booting → (s.hyp.vcpus c).state ≠ .unused ∧
      s'.won c = [(c, (s.hyp.vcpus c).regs.elr)])
    (hcheck : s'.boot c = .check → (s.hyp.vcpus c).state = .ready)
    (hload : s'.boot c = .load → (s.hyp.cores c).tpidrEl2 = some c)
    (hstop : s'.boot c ≠ .stopped)
    (henter : ∀ i addr, s'.boot c = .entered i addr → s'.won c = [(i, addr)]) :
    s'.Consistent P heap := by
  constructor
  case slots => exact hhyp ▸ C.slots
  case used =>
    intro v k hk
    rw [hhyp]
    exact C.used v k (hcall ▸ hk)
  case asked =>
    intro d hd
    rw [hhyp]
    by_cases hdc : d = c
    · exact hdc ▸ hasked
    · exact C.asked d (hboot d hdc ▸ hd)
  case none_won =>
    intro d hd
    by_cases hdc : d = c
    · exact absurd (hdc ▸ hd) hne
    · rw [hwon d hdc]
      exact C.none_won d (hboot d hdc ▸ hd)
  case smc_ready =>
    intro v t e i hk hoff
    rw [hhyp]
    by_cases hic : i = c
    · exact absurd (hic ▸ hoff) hne
    · exact C.smc_ready v t e i (hcall ▸ hk) (hboot i hic ▸ hoff)
  case booting =>
    intro d hd
    rw [hhyp]
    by_cases hdc : d = c
    · subst hdc
      exact hbooting hd
    · rw [hwon d hdc]
      exact C.booting d (hboot d hdc ▸ hd)
  case check =>
    intro d hd
    rw [hhyp]
    by_cases hdc : d = c
    · subst hdc
      exact hcheck hd
    · exact C.check d (hboot d hdc ▸ hd)
  case load =>
    intro d hd
    rw [hhyp]
    by_cases hdc : d = c
    · subst hdc
      exact hload hd
    · exact C.load d (hboot d hdc ▸ hd)
  case agrees =>
    intro d
    by_cases hdc : d = c
    · subst hdc
      exact ⟨hstop, henter⟩
    · rw [hboot d hdc, hwon d hdc]
      exact C.agrees d

/-- The core begins to start: its virtual CPU is ready and has the accepted address. -/
theorem begins (C : s.Consistent P heap) (hoff : s.boot c = .off)
    (hasked : ∃ t : BitVec 64, t.toNat = c.val ∧ P.cpuOnSmc t ∈ s.hyp.smcs)
    (hready : (s.hyp.vcpus c).state = .ready) :
    ((s.setBoot c .check).win c c (s.hyp.vcpus c).regs.elr).Consistent P heap := by
  have hboot : ((s.setBoot c .check).win c c (s.hyp.vcpus c).regs.elr).boot c = .check := by simp
  refine C.moves (c := c) rfl rfl (fun d hd => by simp [hd]) (fun d hd => by simp [hd])
    (by rw [hboot]; nofun) hasked (fun _ => ?_) (fun _ => hready) (by rw [hboot]; nofun)
    (by rw [hboot]; nofun) (by rw [hboot]; nofun)
  simp [hready, C.none_won c hoff]

/-- A core goes on from one place of its start to the next one. -/
theorem goes (C : s.Consistent P heap) (hc : (s.boot c).Booting) {b : BootPc}
    (hb : b = .switch ∨ b = .load) (hload : b = .load → (s.hyp.cores c).tpidrEl2 = some c) :
    (s.setBoot c b).Consistent P heap := by
  have hne : s.boot c ≠ .off := by
    rcases hc with h | h | h <;> rw [h] <;> nofun
  have hboot : (s.setBoot c b).boot c = b := by simp
  refine C.moves (c := c) rfl rfl (fun d hd => by simp [hd]) (fun d _ => rfl) ?_ (C.asked c hne)
    (fun _ => C.booting c hc) ?_ (fun h => hload (hboot ▸ h)) ?_ ?_
  all_goals
    rw [hboot]
    rcases hb with rfl | rfl <;> nofun

/-- `switch_vcpu` returns: the virtual CPU is in use, so it has a machine. -/
theorem switch_returns (C : s.Consistent P heap) (hc : s.boot c = .switch) :
    wp (switchVcpu c) (fun _ h => Switched (s.hyp.onCore c) c h) (fun _ _ => False)
      (s.hyp.onCore c) := by
  have hvm : (s.hyp.vcpus c).vm ≠ 0 := by
    obtain ⟨_, _, O⟩ := C.slots.owner c (C.booting c (Or.inr (Or.inl hc))).1
    exact O.ne_zero
  exact wp_switchVcpu c.isLt hvm fun _ h => h

/-- The core reads the address, which is the accepted one. -/
theorem enters (C : s.Consistent P heap) (hc : s.boot c = .load) :
    (s.setBoot c (.entered c (s.hyp.vcpus c).regs.elr)).Consistent P heap := by
  have hbefore := C.booting c (Or.inr (Or.inr hc))
  have hne : s.boot c ≠ .off := by rw [hc]; nofun
  have hboot : (s.setBoot c (.entered c (s.hyp.vcpus c).regs.elr)).boot c =
      .entered c (s.hyp.vcpus c).regs.elr := by simp
  refine C.moves (c := c) rfl rfl (fun d hd => by simp [hd]) (fun d _ => rfl)
    (by rw [hboot]; nofun) (C.asked c hne) (fun _ => hbefore) (by rw [hboot]; nofun)
    (by rw [hboot]; nofun) (by rw [hboot]; nofun) fun i addr h => ?_
  rw [hboot, BootPc.entered.injEq] at h
  rw [← h.1, ← h.2]
  exact hbefore.2

/-- `switch_vcpu` on the core `c`, whose virtual CPU has passed the look at its state. -/
theorem switched (C : s.Consistent P heap) (hc : s.boot c = .switch) {h : Hyp}
    (hs : Switched (s.hyp.onCore c) c h) : (s.withHyp h).Consistent P heap := by
  have hboot := C.booting c (Or.inr (Or.inl hc))
  have hvcpus : h.vcpus = Function.update s.hyp.vcpus c { s.hyp.vcpus c with state := .running } :=
    hs.vcpus
  have hself : (h.vcpus c).state = .running := by rw [hvcpus, Function.update_self]
  have hother : ∀ d, d ≠ c → h.vcpus d = s.hyp.vcpus d := by
    intro d hd
    rw [hvcpus, Function.update_of_ne hd]
  have helr : ∀ d, (h.vcpus d).regs.elr = (s.hyp.vcpus d).regs.elr := by
    intro d
    by_cases hd : d = c
    · rw [hvcpus, hd, Function.update_self]
    · rw [hother d hd]
  have hused : ∀ d, (h.vcpus d).state = .unused ↔ (s.hyp.vcpus d).state = .unused := by
    intro d
    by_cases hd : d = c
    · rw [hd, hself]
      exact ⟨nofun, fun h => absurd h hboot.1⟩
    · rw [hother d hd]
  have hvm : ∀ d, (h.vcpus d).vm = (s.hyp.vcpus d).vm := by
    intro d
    by_cases hd : d = c
    · rw [hvcpus, hd, Function.update_self]
    · rw [hother d hd]
  constructor
  case slots => exact C.slots.congr hs.vms hs.sysBlk hvm hused
  case used => exact fun v k hk hun => C.used v k hk ((hused _).mp hun)
  case asked =>
    intro d hd
    have hsmcs : h.smcs = s.hyp.smcs := hs.smcs
    rw [withHyp_hyp, hsmcs]
    exact C.asked d hd
  case smc_ready =>
    intro v' t' e' i' hk hoff
    have hic : i' ≠ c := by
      rintro rfl
      exact absurd (hc.symm.trans hoff) nofun
    rw [withHyp_hyp, hother i' hic]
    exact C.smc_ready v' t' e' i' hk hoff
  case booting =>
    intro d hd
    have hd' := C.booting d hd
    rw [withHyp_hyp, helr]
    exact ⟨fun hun => hd'.1 ((hused d).mp hun), hd'.2⟩
  case check =>
    intro d hd
    have hdc : d ≠ c := by
      rintro rfl
      exact absurd (hc.symm.trans hd) nofun
    rw [withHyp_hyp, hother d hdc]
    exact C.check d hd
  case load =>
    intro d hd
    have hdc : (d : ℕ) ≠ c := by
      intro heq
      rw [Fin.ext heq] at hd
      exact absurd (hc.symm.trans hd) nofun
    rw [withHyp_hyp, hs.other_cores d hdc]
    exact C.load d hd
  exacts [C.none_won, C.agrees]

end CpuOns.Consistent

/-- **One access** that disturbs no entry keeps the invariant. -/
theorem CpuOnStep.consistent {off : BitVec 64 → Prop} (hP : AcceptsOnce P off)
    {s' : CpuOns} {ev : CpuOnEvent} (C : s.Consistent P heap) (U : Undisturbed P s ev)
    (step : CpuOnStep P s ev s') : s'.Consistent P heap := by
  cases step with
  | call _ hv hi => exact C.call hv hi
  | elr hk => exact C.elr hk (U.elr _ _ _ _ rfl hk)
  | ready hk => exact C.ready hk
  | refused hk _ => exact C.asks
  | @accepted _ i c t e hk hc hyes =>
      obtain ⟨hit, helr⟩ := U.smc _ _ _ _ rfl hk hyes
      obtain rfl : i = c := Fin.ext (hit.trans hc.symm)
      have hfresh := ((hP.accepts_iff _ _).mp hyes).2
      -- the firmware was not asked for this core, so the core has not been started
      have hoff : s.boot i = .off := by
        by_contra hne
        obtain ⟨t', ht', hmem⟩ := C.asked i hne
        rw [BitVec.eq_of_toNat_eq (ht'.trans hc)] at hmem
        exact hfresh hmem
      subst helr
      exact C.asks.begins hoff ⟨t, hc.symm, List.mem_cons_self⟩ (C.smc_ready _ _ _ _ hk hoff)
  | @check c hc =>
      rw [if_neg (not_not.mpr (C.check c hc))]
      exact C.goes (Or.inl hc) (Or.inl rfl) nofun
  | @switch c h hc hrun =>
      have hs := ok_of_wp (C.switch_returns hc) hrun
      have C' := C.switched hc hs
      exact C'.goes (Or.inr (Or.inl hc)) (Or.inr rfl) fun _ => hs.tpidr
  | @stop c e h hc hrun => exact (error_of_wp (C.switch_returns hc) hrun).elim
  | @load c i hc hi =>
      obtain rfl : c = i := Option.some.inj ((C.load c hc).symm.trans hi)
      exact C.enters hc

/-- The invariant holds where no call is under way. -/
theorem CpuOns.consistent_start {h : Hyp} (S : Slots heap h) :
    (CpuOns.start h).Consistent P heap := by
  constructor
  case slots => exact S
  case booting =>
    rintro c (hc | hc | hc) <;> exact absurd hc nofun
  case none_won => exact fun _ _ => rfl
  case agrees => exact fun _ => ⟨nofun, nofun⟩
  all_goals nofun

/-- **A run** whose steps disturb no entry keeps the invariant. -/
theorem CpuOnRun.consistent {off : BitVec 64 → Prop} (hP : AcceptsOnce P off) {h : Hyp}
    (S : Slots heap h) {trace : List (CpuOns × CpuOnEvent)} (run : CpuOnRun P h trace s)
    (U : ∀ x ∈ trace, Undisturbed P x.1 x.2) : s.Consistent P heap := by
  induction run with
  | start => exact CpuOns.consistent_start S
  | step _ hstep ih =>
      have hbefore := ih fun x hx => U x (List.mem_cons_of_mem _ hx)
      exact hstep.consistent hP hbefore (U _ List.mem_cons_self)

/-! ## Undisturbed calls and starts

A call that nobody disturbs does what `vpsci_cpu_on` does on its own, and a core that starts
undisturbed goes through `start_vcpu` to the guest. -/

theorem storeReady_storeElr (h : Hyp) (P : Platform) (i : Fin ncpu) (t e : BitVec 64) :
    ((h.storeElr i e).storeReady i).askCpuOn P t = h.cpuOn P i t e := by
  simp only [Hyp.askCpuOn, Hyp.storeReady, Hyp.storeElr, Hyp.setVcpu, Hyp.cpuOn, Vcpu.turnOn,
    Function.update_self, Function.update_idem]

/-- What an access of a call needs to disturb no entry. -/
theorem Undisturbed.go {k : Call} (hk : s.call v = some k)
    (helr : k.stage = .elr → (s.boot k.target).Booting → ∀ w ∈ s.won k.target, w.2 = k.entryAddr)
    (hsmc : k.stage = .smc → P.cpuOnAnswer s.hyp k.targetCpu = 0 →
      k.target.val = k.targetCpu.toNat ∧ (s.hyp.vcpus k.target).regs.elr = k.entryAddr) :
    Undisturbed P s (.go v) where
  elr v' t e i hv hk' := by
    cases hv
    cases hk.symm.trans hk'
    exact helr rfl
  smc v' t e i hv hk' := by
    cases hv
    cases hk.symm.trans hk'
    exact hsmc rfl

/-- A step that is no access of a call disturbs no entry. -/
theorem Undisturbed.of_ne {ev : CpuOnEvent} (h : ∀ v, ev ≠ .go v) : Undisturbed P s ev where
  elr v _ _ _ hv := absurd hv (h v)
  smc v _ _ _ hv := absurd hv (h v)

/-- More steps of a run, none of which disturbs an entry. -/
def CalmSteps (P : Platform) (h : Hyp) (trace : List (CpuOns × CpuOnEvent)) (s : CpuOns) : Prop :=
  ∃ steps, CpuOnRun P h (steps ++ trace) s ∧ ∀ x ∈ steps, Undisturbed P x.1 x.2

theorem CpuOnRun.calm {h : Hyp} {trace : List (CpuOns × CpuOnEvent)} (run : CpuOnRun P h trace s) :
    CalmSteps P h trace s := ⟨[], run, fun _ hx => absurd hx List.not_mem_nil⟩

theorem CalmSteps.step {h : Hyp} {trace : List (CpuOns × CpuOnEvent)} {s' : CpuOns}
    {ev : CpuOnEvent} (run : CalmSteps P h trace s) (U : Undisturbed P s ev)
    (hstep : CpuOnStep P s ev s') : CalmSteps P h trace s' := by
  obtain ⟨steps, run, hall⟩ := run
  exact ⟨(s, ev) :: steps, run.step hstep, List.forall_mem_cons.mpr ⟨U, hall⟩⟩

/-- A call that is made while its core is off, and accepted, goes through and starts the core. -/
theorem CalmSteps.calls {h : Hyp} {trace : List (CpuOns × CpuOnEvent)}
    (run : CalmSteps P h trace s) (hfree : s.call v = none)
    (hv : (s.hyp.vcpus v).state ≠ .unused) (hi : Targets s.hyp v t c) (ht : c.val = t.toNat)
    (hoff : s.boot c = .off) (hyes : P.cpuOnAnswer s.hyp t = 0) (e : BitVec 64) :
    ∃ s', CalmSteps P h trace s' ∧ vpsciTrapSmc P v psciSystemCpuon t e s.hyp = .ok 0 s'.hyp ∧
      s'.boot c = .check ∧ s'.won c = (c, e) :: s.won c ∧ s'.call v = none := by
  have hno : ¬ (s.boot c).Booting := by
    rintro (h | h | h) <;> exact absurd (hoff.symm.trans h) nofun
  have run₁ := run.step (.of_ne (by nofun)) (.call (e := e) hfree hv hi)
  have run₂ := run₁.step (.go (setCall_self ..) (fun _ h => absurd h hno) nofun)
    (.elr (setCall_self ..))
  have run₃ := run₂.step (.go (setCall_self ..) nofun nofun) (.ready (setCall_self ..))
  have run₄ := run₃.step (.go (setCall_self ..) nofun fun _ _ => ⟨ht, by simp⟩)
    (.accepted (setCall_self ..) ht hyes)
  refine ⟨_, run₄, ?_, by simp, by simp, by simp⟩
  rw [vpsciTrapSmc_cpuon hi, hyes]
  exact congrArg _ (storeReady_storeElr s.hyp P c t e).symm

/-- A core whose virtual CPU is ready and has a machine enters the guest. -/
theorem CalmSteps.boots {h : Hyp} {trace : List (CpuOns × CpuOnEvent)}
    (run : CalmSteps P h trace s) (hc : s.boot c = .check)
    (hready : (s.hyp.vcpus c).state = .ready) (hvm : (s.hyp.vcpus c).vm ≠ 0) :
    ∃ s', CalmSteps P h trace s' ∧ startVcpu (s.hyp.onCore c) = .ok () s'.hyp ∧
      s'.boot c = .entered c (s.hyp.vcpus c).regs.elr ∧ s'.won = s.won := by
  have hswitch : wp (switchVcpu c) (fun _ h' => Switched (s.hyp.onCore c) c h') (fun _ _ => False)
      (s.hyp.onCore c) := wp_switchVcpu c.isLt hvm fun _ h => h
  obtain ⟨_, h', hh', hs⟩ := exists_ok_of_wp hswitch
  have helr : (h'.vcpus c).regs.elr = (s.hyp.vcpus c).regs.elr := by
    rw [hs.vcpus, Function.update_self]
    rfl
  have run₁ := run.step (.of_ne (by nofun)) (.check hc)
  rw [if_neg (not_not.mpr hready)] at run₁
  have run₂ := run₁.step (.of_ne (by nofun)) (.switch (by simp) hh')
  have run₃ := run₂.step (.of_ne (by nofun)) (.load (by simp) hs.tpidr)
  refine ⟨_, run₃, ?_, by simp [helr], rfl⟩
  have hne : ¬ (s.hyp.vcpus c).state ≠ .ready := not_not.mpr hready
  change (if h : c.val < ncpu then _ else _ : Exec Hyp Unit) (s.hyp.onCore c) = _
  rw [dif_pos c.isLt]
  change (if (s.hyp.vcpus c).state ≠ .ready then _ else _ : Exec Hyp Unit) (s.hyp.onCore c) = _
  rw [if_neg hne]
  exact hh'

/-- **The accepted address is entered** in every run of overlapping calls and starting cores
whose steps disturb no entry, from every state that the hypervisor reaches. -/
theorem cpu_on_entry_agreement {off : BitVec 64 → Prop} (hP : AcceptsOnce P off)
    {himageEnd : ℕ} (himg : IsImage himageEnd) {before : List Transition} {h : Hyp}
    (hrun : HypRun P himageEnd before h) {trace : List (CpuOns × CpuOnEvent)}
    (run : CpuOnRun P h trace s) (U : ∀ x ∈ trace, Undisturbed P x.1 x.2) : s.Agrees :=
  (run.consistent hP (hrun.slots himg).1 U).agrees

end steps

/-- A firmware under which core 1 is off: it accepts the first call for it. -/
def acceptFirst : Platform :=
  { obedient with firmware := fun calls smc =>
      if smc.targetCpu = 1 ∧ smc ∉ calls then 0 else -4 }

/-- The firmware keeps to it. -/
theorem acceptFirst_once : AcceptsOnce acceptFirst fun t => t = 1 where
  accepts_iff s t := by
    change ((if t = 1 ∧ acceptFirst.cpuOnSmc t ∉ s.smcs then (0 : BitVec 64)
      else -4).setWidth 32).signExtend 64 = 0 ↔ _
    split
    case isTrue h => simpa using h
    case isFalse h => simpa using h


/-- The first virtual CPU of the small guest turns the second one on at `0x40000000`. -/
theorem exists_accepted : ∃ before h s, HypRun acceptFirst bootEnd before h ∧
    CalmSteps acceptFirst h [] s ∧ (s.hyp.vcpus 0).state ≠ .unused ∧ Targets s.hyp 0 1 1 ∧
    (s.hyp.vcpus 1).vm ≠ 0 ∧ (s.hyp.vcpus 1).state = .ready ∧
    (s.hyp.vcpus 1).regs.elr = 0x40000000 ∧ s.boot 1 = .check ∧ s.call 0 = none ∧
    s.won 1 = [(1, 0x40000000)] := by
  obtain ⟨before, h, hrun, hrunning, hvm, _, _, hi, hsmcs⟩ := exists_running acceptFirst
  have hyes : acceptFirst.cpuOnAnswer h 1 = 0 := by
    rw [acceptFirst_once.accepts_iff, hsmcs]
    exact ⟨rfl, List.not_mem_nil⟩
  have hused : (h.vcpus 0).state ≠ .unused := by
    rw [hrunning]
    nofun
  have hstart : CalmSteps acceptFirst h [] (.start h) := CpuOnRun.start.calm
  obtain ⟨s, hcalm, hhyp, hcheck, hwon, hfree⟩ :=
    hstart.calls rfl hused hi rfl rfl hyes 0x40000000
  rw [CpuOns.start, vpsciTrapSmc_cpuon hi, EStateM.Result.ok.injEq] at hhyp
  have hzero : s.hyp.vcpus 0 = h.vcpus 0 := by
    rw [← hhyp.2, cpuOn_vcpus, Function.update_of_ne (by decide)]
  have hone : s.hyp.vcpus 1 = (h.vcpus 1).turnOn 0x40000000 := by
    rw [← hhyp.2, cpuOn_vcpus, Function.update_self]
  have hvms : s.hyp.vms = h.vms := by
    rw [← hhyp.2, cpuOn_vms]
  refine ⟨before, h, s, hrun, hcalm, hzero ▸ hused, ?_, hone ▸ hvm, hone ▸ rfl, hone ▸ rfl,
    hcheck, hfree, hwon⟩
  rw [Targets, hvms, hzero]
  exact hi

/-- A second call stores the same address again while the core starts, and the firmware refuses it:
the core enters there. -/
theorem cpu_on_entry_agreement_again : ∃ before h trace s, HypRun acceptFirst bootEnd before h ∧
    CpuOnRun acceptFirst h trace s ∧ (∃ x ∈ trace, x.2 = .go 0 ∧ (x.1.boot 1).Booting ∧
      x.1.call 0 = some ⟨.elr, 1, 0x40000000, 1⟩) ∧
    s.boot 1 = .entered 1 0x40000000 ∧ s.Agrees := by
  obtain ⟨before, h, s, hrun, hcalm, hused, hi, hvm, _, _, hcheck, hfree, hwon⟩ :=
    exists_accepted
  obtain ⟨steps, run, U⟩ := hcalm.step (.of_ne (by nofun)) (.call (e := 0x40000000) hfree hused hi)
  -- the firmware has been asked before
  have hasked : acceptFirst.cpuOnAnswer s.hyp 1 ≠ 0 := by
    have C := run.consistent acceptFirst_once (hrun.slots isImage_bootEnd).1
      (by simpa using U)
    obtain ⟨t, ht, hmem⟩ := C.asked 1 (by simp [hcheck])
    obtain rfl : t = 1 := BitVec.eq_of_toNat_eq ht
    rw [ne_eq, acceptFirst_once.accepts_iff]
    exact fun h => h.2 hmem
  have hstores : Undisturbed acceptFirst (s.setCall 0 (some ⟨.elr, 1, 0x40000000, 1⟩)) (.go 0) := by
    refine .go (setCall_self ..) (fun _ _ w hw => ?_) nofun
    rw [setCall_won, hwon] at hw
    rw [List.mem_singleton.mp hw]
  have run₁ := run.step (.elr (setCall_self ..))
  have run₂ := run₁.calm.step (.go (setCall_self ..) nofun nofun) (.ready (setCall_self ..))
  have run₃ := run₂.step (.go (setCall_self ..) nofun fun _ h => absurd h hasked)
    (.refused (setCall_self ..) hasked)
  obtain ⟨s', ⟨later, run', U'⟩, _, hentered, _⟩ :=
    run₃.boots (c := 1) hcheck (by simp [Hyp.askCpuOn]) (by simpa [Hyp.askCpuOn] using hvm)
  refine ⟨before, h, _, s', hrun, run', ⟨_, List.mem_append_right _ List.mem_cons_self, rfl,
    Or.inl hcheck, setCall_self ..⟩, by simpa [Hyp.askCpuOn] using hentered,
    cpu_on_entry_agreement acceptFirst_once isImage_bootEnd hrun run' fun x hx => ?_⟩
  rcases List.mem_append.mp hx with hx | hx
  · exact U' x hx
  rcases List.mem_cons.mp hx with rfl | hx
  · exact hstores
  · exact U x (by simpa using hx)

/-- A second call, which the firmware will refuse, stores another address before the core has
read the first one: the core enters at the second one. -/
theorem cpu_on_entry_overtaken : ∃ before h trace s, HypRun acceptFirst bootEnd before h ∧
    CpuOnRun acceptFirst h trace s ∧ ¬ s.Agrees := by
  obtain ⟨before, h, s, hrun, ⟨trace, run, _⟩, hused, hi, hvm, hready, _, hcheck, hfree, hwon⟩ :=
    exists_accepted
  have run₁ := run.step (.call (e := 0x50000000) hfree hused hi)
  have run₂ := run₁.step (.elr (setCall_self ..))
  obtain ⟨s', ⟨steps, run', _⟩, _, hentered, hwon'⟩ :=
    run₂.calm.boots hcheck (by simpa using hready) (by simpa using hvm)
  refine ⟨before, h, _, s', hrun, run', fun hagrees => ?_⟩
  have hbad := (hagrees 1).2 1 0x50000000 (by simpa using hentered)
  rw [hwon'] at hbad
  exact absurd (hwon.symm.trans hbad) (by decide)

end Xhyper
